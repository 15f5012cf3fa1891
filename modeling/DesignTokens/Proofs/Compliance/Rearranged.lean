import Mathlib.Data.List.Forall2
import DesignTokens.Proofs.Compliance.Report
import DesignTokens.Proofs.Compliance.SpacingLine

/-!
# Reports do not go by order

A spec gives its spacing lines, dimensions and values in some order, and a report
does not go by it. The groups of the spacing lines ask for what the lines ask
for, so which properties have a gap depends on the lines as a set
(`groupAsks_spacingGroups`, `mem_properties_spacingGaps`); what is missing of the
dimensions is moved as they are (`Spec.Rearranged.missingVariants_perm`). Both
together are `Spec.Rearranged.sameVerdict`.

The text of a spacing issue does go by the order of the lines, for it lists the
lengths of its group. A line more for a property without an issue changes none of
these texts, as it leaves the other groups alone (`groupsBut_spacingGroups_insert`).
-/

namespace DesignTokens

open Text

/-! ## What groups ask for -/

/-- Some line asks for the property at the number of pixels. -/
def AsksFor (lines : List String) (p : Property) (n : Nat) : Prop :=
  ∃ line ∈ lines, ∃ r, spacingRequirement? line = some r ∧ r.property = p ∧ r.pixels = n

/-- Some group asks for the property at the number of pixels. -/
def GroupAsks (groups : List SpacingGroup) (p : Property) (n : Nat) : Prop :=
  ∃ g ∈ groups, g.1 = p ∧ n ∈ g.2

theorem groupAsks_cons {g : SpacingGroup} {groups : List SpacingGroup} {p : Property} {n : Nat} :
    GroupAsks (g :: groups) p n ↔ g.1 = p ∧ n ∈ g.2 ∨ GroupAsks groups p n :=
  List.exists_mem_cons_iff ..

/-- A requirement adds itself to what the groups ask for, and nothing else. -/
theorem groupAsks_addRequirement {q p : Property} {m n : Nat} : ∀ {groups : List SpacingGroup},
    GroupAsks (addRequirement q m groups) p n ↔ GroupAsks groups p n ∨ q = p ∧ m = n
  | [] => by simp [addRequirement, GroupAsks, eq_comm]
  | (first, values) :: groups => by
      rw [addRequirement]
      split
      case isTrue h =>
        subst h
        rw [groupAsks_cons, groupAsks_cons]
        dsimp only
        split
        case isTrue hmem =>
          have hmem : m ∈ values := by simpa using hmem
          constructor
          · exact .inl
          · rintro (h | ⟨rfl, rfl⟩)
            · exact h
            · exact .inl ⟨rfl, hmem⟩
        case isFalse =>
          rw [List.mem_append, List.mem_singleton, and_or_left, or_right_comm, eq_comm (a := n)]
      case isFalse =>
        rw [groupAsks_cons, groupAsks_cons, groupAsks_addRequirement, or_assoc]

theorem groupAsks_foldl {p : Property} {n : Nat} : ∀ (rs : List SpacingRequirement)
    (groups : List SpacingGroup),
    GroupAsks (rs.foldl (fun groups r => addRequirement r.property r.pixels groups) groups) p n ↔
      GroupAsks groups p n ∨ ∃ r ∈ rs, r.property = p ∧ r.pixels = n
  | [], groups => by simp
  | r :: rs, groups => by
      rw [List.foldl_cons, groupAsks_foldl rs, groupAsks_addRequirement, List.exists_mem_cons_iff,
        or_assoc]

/-- The groups ask for what the lines ask for. -/
theorem groupAsks_spacingGroups {lines : List String} {p : Property} {n : Nat} :
    GroupAsks (spacingGroups lines) p n ↔ AsksFor lines p n := by
  have hnone : ¬GroupAsks [] p n := by simp [GroupAsks]
  rw [spacingGroups, groupAsks_foldl, or_iff_right hnone]
  constructor
  · rintro ⟨r, hr, hasks⟩
    obtain ⟨line, hline, hr⟩ := List.mem_filterMap.mp hr
    exact ⟨line, hline, r, hr, hasks⟩
  · rintro ⟨line, hline, r, hr, hasks⟩
    exact ⟨r, List.mem_filterMap.mpr ⟨line, hline, hr⟩, hasks⟩

/-! ## Properties with a spacing issue -/

/-- The source has the property at the number of pixels. -/
def hasLength (source : List Char) (p : Property) (n : Nat) : Bool :=
  (pixelLiteral n).occurs source || holdsToken source (p.token n).toList
    || holds (p.bracketToken n).toList source

/-- The report has a spacing issue for the property. -/
def Report.HasSpacingIssue (r : Report) (p : Property) : Prop :=
  ∃ s ∈ r.spacingIssues, (p.name ++ ": ").toList <+: s.toList

section

variable {source : List Char} {spec : Spec} {policy : Policy}

theorem hasSpacingIssue_validate_iff {p : Property} :
    (validate source spec policy).HasSpacingIssue p ↔ p ∈ (spacingGaps source spec).map (·.1) := by
  constructor
  · rintro ⟨s, hs, hname⟩
    obtain ⟨g, hg, rfl⟩ := List.mem_map.mp hs
    exact List.mem_map.mpr ⟨g, hg, eq_of_prefix_spacingIssue hname⟩
  · intro hp
    obtain ⟨g, hg, rfl⟩ := List.mem_map.mp hp
    refine ⟨spacingIssue g, List.mem_map_of_mem hg, ?_⟩
    have hwords : ": expected " = ": " ++ "expected " := by decide
    have hissue : spacingIssue g
        = (g.1.name ++ ": ") ++ ("expected " ++ describeTargets g.1 g.2) := by
      show g.1.name ++ ": expected " ++ describeTargets g.1 g.2 = _
      rw [hwords]
      simp only [String.append_assoc]
    rw [hissue]
    exact ⟨_, String.toList_append.symm⟩

/-- A property has a gap if it is asked for and the source has it at none of the lengths. -/
theorem mem_properties_spacingGaps {p : Property} :
    p ∈ (spacingGaps source spec).map (·.1) ↔
      (∃ n, AsksFor spec.spacing p n) ∧
        ∀ n, AsksFor spec.spacing p n → hasLength source p n = false := by
  have hwell := wellGrouped_spacingGroups spec.spacing
  simp only [← groupAsks_spacingGroups]
  constructor
  · intro hp
    obtain ⟨g, hg, rfl⟩ := List.mem_map.mp hp
    obtain ⟨hmem, hgap⟩ := List.mem_filter.mp hg
    obtain ⟨n, hn⟩ := List.exists_mem_of_ne_nil _ (hwell.ne_nil g hmem)
    refine ⟨⟨n, g, hmem, rfl, hn⟩, ?_⟩
    rintro m ⟨g', hg', heq, hm⟩
    obtain rfl := hwell.eq_of_mem hg' hmem heq
    by_contra hlength
    have hany : satisfiesSpacing source g' = true :=
      List.any_eq_true.mpr ⟨m, hm, Bool.not_eq_false _ |>.mp hlength⟩
    rw [hany] at hgap
    cases hgap
  · rintro ⟨⟨n, g, hmem, rfl, -⟩, hlacks⟩
    refine List.mem_map.mpr ⟨g, List.mem_filter.mpr ⟨hmem, ?_⟩, rfl⟩
    have hall : satisfiesSpacing source g = false :=
      List.any_eq_false.mpr fun m hm => by simpa [hasLength] using hlacks m ⟨g, hmem, rfl, hm⟩
    rw [hall]
    rfl

theorem nodup_properties_spacingGaps : ((spacingGaps source spec).map (·.1)).Nodup :=
  (wellGrouped_spacingGroups spec.spacing).nodup.sublist (List.filter_sublist.map _)

end

/-! ## Another order -/

/-- The same lines, dimensions and values in another order, and the lines perhaps repeated. -/
structure Spec.Rearranged (spec spec' : Spec) : Prop where
  spacing : ∀ line, line ∈ spec'.spacing ↔ line ∈ spec.spacing
  variants : ∃ row, List.Forall₂ (fun x y : String × List String => y.1 = x.1 ∧ y.2.Perm x.2)
    spec.variants row ∧ spec'.variants.Perm row

/-- Two reports give the same verdict: the same score and flags, spacing issues for the same
properties, and the same missing variants up to their order. -/
structure Report.SameVerdict (r r' : Report) : Prop where
  overallMatch : r'.overallMatch = r.overallMatch
  hasRequiredVariants : r'.hasRequiredVariants = r.hasRequiredVariants
  hasCorrectSpacing : r'.hasCorrectSpacing = r.hasCorrectSpacing
  hasThemeColors : r'.hasThemeColors = r.hasThemeColors
  spacing : ∀ p, r'.HasSpacingIssue p ↔ r.HasSpacingIssue p
  missing : r'.missingVariants.Perm r.missingVariants

/-- What a report finds missing of one dimension. -/
def missingOf (source : List Char) (policy : Policy) (x : String × List String) : List String :=
  ((variantGap? source policy x).map VariantGap.missing).getD []

section

variable {source : List Char} {spec spec' : Spec} {policy : Policy}

theorem missingVariants_eq : (validate source spec policy).missingVariants
    = spec.variants.flatMap (missingOf source policy) := by
  have hrow : ∀ xs : List (String × List String),
      (xs.filterMap (variantGap? source policy)).flatMap VariantGap.missing
        = xs.flatMap (missingOf source policy) := by
    intro xs
    induction xs with
    | nil => rfl
    | cons x xs ih =>
        rw [List.filterMap_cons, List.flatMap_cons, ← ih, missingOf]
        cases variantGap? source policy x <;> rfl
  exact hrow spec.variants

theorem missingOf_perm {x y : String × List String} (hname : y.1 = x.1) (hvalues : y.2.Perm x.2) :
    (missingOf source policy y).Perm (missingOf source policy x) := by
  obtain ⟨name, values⟩ := x
  obtain ⟨name', values'⟩ := y
  obtain rfl : name' = name := hname
  have habsent := (hvalues.filter fun v => !policy.isGenericValue v).filter
    fun v => !namesWord source v
  simp only [missingOf, variantGap?]
  split
  case isTrue => exact .refl _
  case isFalse =>
    split
    case isTrue => exact .refl _
    case isFalse =>
      rw [habsent.isEmpty_eq]
      split
      case isTrue => exact .refl _
      case isFalse => exact habsent.map _

theorem Spec.Rearranged.missingVariants_perm (h : spec.Rearranged spec') :
    (validate source spec' policy).missingVariants.Perm
      (validate source spec policy).missingVariants := by
  obtain ⟨row, hvalues, hdimensions⟩ := h.variants
  have hrow : ∀ {xs ys : List (String × List String)},
      List.Forall₂ (fun x y => y.1 = x.1 ∧ y.2.Perm x.2) xs ys →
      (ys.flatMap (missingOf source policy)).Perm (xs.flatMap (missingOf source policy)) := by
    intro xs ys hxs
    induction hxs with
    | nil => exact .refl _
    | cons hx _ ih => exact (missingOf_perm hx.1 hx.2).append ih
  rw [missingVariants_eq, missingVariants_eq]
  exact (hdimensions.flatMap_right _).trans (hrow hvalues)

theorem Spec.Rearranged.asksFor_iff (h : spec.Rearranged spec') {p : Property} {n : Nat} :
    AsksFor spec'.spacing p n ↔ AsksFor spec.spacing p n :=
  exists_congr fun line => and_congr_left' (h.spacing line)

theorem Spec.Rearranged.gaps_perm (h : spec.Rearranged spec') :
    ((spacingGaps source spec').map (·.1)).Perm ((spacingGaps source spec).map (·.1)) := by
  refine (List.perm_ext_iff_of_nodup nodup_properties_spacingGaps
    nodup_properties_spacingGaps).mpr fun p => ?_
  simp only [mem_properties_spacingGaps, h.asksFor_iff]

theorem Spec.Rearranged.sameVerdict (h : spec.Rearranged spec') :
    (validate source spec policy).SameVerdict (validate source spec' policy) := by
  have hmissing : (validate source spec' policy).missingVariants.Perm
      (validate source spec policy).missingVariants := h.missingVariants_perm
  have hgaps : ((spacingGaps source spec').map (·.1)).Perm
      ((spacingGaps source spec).map (·.1)) := h.gaps_perm
  have hissues : (validate source spec' policy).spacingIssues.length
      = (validate source spec policy).spacingIssues.length := by
    have hlength := hgaps.length_eq
    rw [List.length_map, List.length_map] at hlength
    show ((spacingGaps source spec').map spacingIssue).length
      = ((spacingGaps source spec).map spacingIssue).length
    rw [List.length_map, List.length_map, hlength]
  refine ⟨?_, hmissing.isEmpty_eq, ?_, rfl, fun p => ?_, hmissing⟩
  · rw [overallMatch_validate, overallMatch_validate, hmissing.length_eq, hissues]
    rfl
  · show (validate source spec' policy).spacingIssues.isEmpty
      = (validate source spec policy).spacingIssues.isEmpty
    rw [Bool.eq_iff_iff, List.isEmpty_iff_length_eq_zero, List.isEmpty_iff_length_eq_zero, hissues]
  · rw [hasSpacingIssue_validate_iff, hasSpacingIssue_validate_iff, hgaps.mem_iff]

end

/-! ## A line more -/

/-- The groups of all properties but one. -/
def groupsBut (p : Property) (groups : List SpacingGroup) : List SpacingGroup :=
  groups.filter fun g => g.1 ≠ p

theorem groupsBut_cons_self {p : Property} {values : List Nat} {groups : List SpacingGroup} :
    groupsBut p ((p, values) :: groups) = groupsBut p groups :=
  List.filter_cons_of_neg (by simp)

theorem groupsBut_cons_of_ne {p q : Property} (h : q ≠ p) {values : List Nat}
    {groups : List SpacingGroup} :
    groupsBut p ((q, values) :: groups) = (q, values) :: groupsBut p groups :=
  List.filter_cons_of_pos (by simpa using h)

theorem groupsBut_addRequirement_self {p : Property} {n : Nat} : ∀ {groups : List SpacingGroup},
    groupsBut p (addRequirement p n groups) = groupsBut p groups
  | [] => groupsBut_cons_self
  | (q, values) :: groups => by
      rw [addRequirement]
      split
      case isTrue h =>
        subst h
        rw [groupsBut_cons_self, groupsBut_cons_self]
      case isFalse h =>
        rw [groupsBut_cons_of_ne h, groupsBut_cons_of_ne h, groupsBut_addRequirement_self]

theorem groupsBut_addRequirement_of_ne {p q : Property} (h : q ≠ p) {n : Nat} :
    ∀ {groups : List SpacingGroup},
      groupsBut p (addRequirement q n groups) = addRequirement q n (groupsBut p groups)
  | [] => groupsBut_cons_of_ne h
  | (first, values) :: groups => by
      rw [addRequirement]
      split
      case isTrue hq =>
        subst hq
        rw [groupsBut_cons_of_ne h, groupsBut_cons_of_ne h, addRequirement, if_pos rfl]
      case isFalse hq =>
        by_cases hp : first = p
        · subst hp
          rw [groupsBut_cons_self, groupsBut_cons_self, groupsBut_addRequirement_of_ne h]
        · rw [groupsBut_cons_of_ne hp, groupsBut_cons_of_ne hp, addRequirement, if_neg hq,
            groupsBut_addRequirement_of_ne h]

/-- Groups that agree but for one property still do so behind further requirements. -/
theorem groupsBut_foldl {p : Property} : ∀ (rs : List SpacingRequirement)
    {groups groups' : List SpacingGroup}, groupsBut p groups' = groupsBut p groups →
    groupsBut p (rs.foldl (fun groups r => addRequirement r.property r.pixels groups) groups')
      = groupsBut p (rs.foldl (fun groups r => addRequirement r.property r.pixels groups) groups)
  | [], _, _, h => h
  | r :: rs, groups, groups', h => by
      refine groupsBut_foldl rs ?_
      dsimp only
      by_cases hp : r.property = p
      · rw [hp, groupsBut_addRequirement_self, groupsBut_addRequirement_self, h]
      · rw [groupsBut_addRequirement_of_ne hp, groupsBut_addRequirement_of_ne hp, h]

/-- A line leaves the groups of all properties as they are but that of its own. -/
theorem groupsBut_spacingGroups_insert {before behind : List String} {line : String}
    {r : SpacingRequirement} (hr : spacingRequirement? line = some r) :
    groupsBut r.property (spacingGroups (before ++ line :: behind))
      = groupsBut r.property (spacingGroups (before ++ behind)) := by
  simp only [spacingGroups, List.filterMap_append, List.filterMap_cons_some hr, List.foldl_append,
    List.foldl_cons]
  exact groupsBut_foldl _ groupsBut_addRequirement_self

theorem spacingGaps_eq_of_not_mem {source : List Char} {spec : Spec} {p : Property}
    (h : p ∉ (spacingGaps source spec).map (·.1)) :
    spacingGaps source spec
      = (groupsBut p (spacingGroups spec.spacing)).filter fun g => !satisfiesSpacing source g := by
  have hself : (spacingGaps source spec).filter (fun g => g.1 ≠ p) = spacingGaps source spec := by
    rw [List.filter_eq_self]
    rintro g hg
    exact decide_eq_true fun heq => h (heq ▸ List.mem_map_of_mem hg)
  rw [← hself, spacingGaps, groupsBut, List.filter_filter, List.filter_filter]
  exact List.filter_congr fun g _ => Bool.and_comm _ _

/-- The spec with a spacing line more, behind the given ones. -/
def Spec.withLine (spec : Spec) (before : List String) (line : String) (behind : List String) :
    Spec :=
  { spec with spacing := before ++ line :: behind }

/-- What the line asks for has been asked for already, and the report is content with it. -/
def Report.Settles (r : Report) (lines : List String) (line : String) : Prop :=
  ∀ q, spacingRequirement? line = some q →
    (∃ n, AsksFor lines q.property n) ∧ ¬r.HasSpacingIssue q.property

theorem spacingIssues_insert {source : List Char} {spec : Spec} {policy : Policy}
    {before behind : List String} {line : String} (hspacing : spec.spacing = before ++ behind)
    (hsettled : (validate source spec policy).Settles spec.spacing line) :
    (validate source (spec.withLine before line behind) policy).spacingIssues
      = (validate source spec policy).spacingIssues := by
  show (spacingGaps source (spec.withLine before line behind)).map spacingIssue
    = (spacingGaps source spec).map spacingIssue
  refine congrArg _ ?_
  cases hr : spacingRequirement? line with
  | none =>
      -- a line that asks for nothing opens no group
      have hgroups : spacingGroups (before ++ line :: behind)
          = spacingGroups (before ++ behind) := by
        simp only [spacingGroups, List.filterMap_append, List.filterMap_cons_none hr]
      rw [spacingGaps, spacingGaps, hspacing, Spec.withLine, hgroups]
  | some r =>
      obtain ⟨⟨n, hn⟩, hcontent⟩ := hsettled r hr
      rw [hasSpacingIssue_validate_iff] at hcontent
      have hcontent' : r.property ∉
          (spacingGaps source (spec.withLine before line behind)).map (·.1) := by
        intro hgap
        rw [mem_properties_spacingGaps] at hgap hcontent
        refine hcontent ⟨⟨n, hn⟩, fun m hm => hgap.2 m ?_⟩
        obtain ⟨asking, hasking, hm⟩ := hm
        refine ⟨asking, ?_, hm⟩
        rw [hspacing] at hasking
        exact List.mem_append.mpr
          ((List.mem_append.mp hasking).imp_right (List.mem_cons_of_mem _))
      rw [spacingGaps_eq_of_not_mem hcontent, spacingGaps_eq_of_not_mem hcontent', hspacing]
      exact congrArg _ (groupsBut_spacingGroups_insert hr)

/-! ## The verdict -/

/-- The verdict of a report does not go by the order of the spec or by what it repeats, and a line
that asks again for what the source has got adds no spacing issue. -/
theorem verdict_rearranged (source : List Char) (policy : Policy) :
    (∀ spec spec' : Spec, spec.Rearranged spec' →
      (validate source spec policy).SameVerdict (validate source spec' policy)) ∧
    ∀ (spec : Spec) (before behind : List String) (line : String),
      spec.spacing = before ++ behind →
      (validate source spec policy).Settles spec.spacing line →
      (validate source (spec.withLine before line behind) policy).spacingIssues
        = (validate source spec policy).spacingIssues :=
  ⟨fun _ _ h => h.sameVerdict, fun _ _ _ _ => spacingIssues_insert⟩

/-- A chip whose spec gives two dimensions and two lengths. -/
def chipSpec : Spec where
  variants := [("size", ["sm", "lg"]), ("tone", ["calm"])]
  spacing := ["Base height: 40px", "Padding: 8px"]

/-- The spec of the chip in another order, with its padding twice. -/
def chipSpecReordered : Spec where
  variants := [("tone", ["calm"]), ("size", ["lg", "sm"])]
  spacing := ["Padding: 8px", "Base height: 40px", "Padding: 8px"]

def chipSource : List Char :=
  "cva(\"h-9 p-2\", \x7b variants: \x7b size: \x7b sm: \"h-9\" \x7d \x7d \x7d);\n".toList

theorem verdict_rearranged_chip :
    chipSpec.Rearranged chipSpecReordered ∧
    (validate chipSource chipSpec Policy.builtin).SameVerdict
      (validate chipSource chipSpecReordered Policy.builtin) ∧
    (validate chipSource chipSpec Policy.builtin).Settles chipSpec.spacing "Padding: 12px" ∧
    (validate chipSource (chipSpec.withLine [] "Padding: 12px" chipSpec.spacing)
        Policy.builtin).spacingIssues
      = (validate chipSource chipSpec Policy.builtin).spacingIssues := by
  obtain ⟨hverdict, hline⟩ := verdict_rearranged chipSource Policy.builtin
  have hrearranged : chipSpec.Rearranged chipSpecReordered := by
    refine ⟨fun line => ?_, [("size", ["lg", "sm"]), ("tone", ["calm"])], ?_, ?_⟩
    · simp only [chipSpec, chipSpecReordered, List.mem_cons, List.not_mem_nil, or_false]
      tauto
    · exact .cons ⟨rfl, .swap ..⟩ (.cons ⟨rfl, .refl _⟩ .nil)
    · exact .swap ..
  have hsettles : (validate chipSource chipSpec Policy.builtin).Settles chipSpec.spacing
      "Padding: 12px" := by
    intro q hq
    have hread : spacingRequirement? "Padding: 12px"
        = some ⟨"Padding", .padding, 12, "Padding: 12px"⟩ := by decide
    obtain rfl := Option.some.inj (hread.symm.trans hq)
    refine ⟨⟨8, "Padding: 8px", by decide, ⟨"Padding", .padding, 8, "Padding: 8px"⟩, by decide,
      rfl, rfl⟩, ?_⟩
    rw [hasSpacingIssue_validate_iff]
    decide
  exact ⟨hrearranged, hverdict _ _ hrearranged, hsettles, hline _ [] _ _ rfl hsettles⟩

end DesignTokens
