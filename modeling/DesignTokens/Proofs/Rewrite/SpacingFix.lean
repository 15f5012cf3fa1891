import DesignTokens.Proofs.Issue.Extraction
import DesignTokens.Proofs.Rewrite.Survival
import DesignTokens.Proofs.Token.Occurrences
import DesignTokens.Proofs.Token.Written

/-!
# Spacing fixes

A spacing fix puts its token where the first token of its bucket stood, so the
text has the token behind it (`exists_tokenAt_spacingEdit`), and the renaming of
reserved names leaves tokens in place (`holdsToken_of_renaming`). What a spacing
issue suggests is the token of a length that the spec asks for. So if the text
has a token of the bucket at all, the fix settles its property
(`spacing_settled_of_fix`).
-/

namespace DesignTokens

open Text Rewrite

/-! ## The edit -/

theorem exists_firstOccurrence {ps : List Property} {p : Property} {text : List Char}
    (hp : p ∈ ps) (hocc : p.occurrences text ≠ []) :
    ∃ o, firstOccurrence? ps text = some o := by
  obtain ⟨o, os, hos⟩ := List.exists_cons_of_ne_nil hocc
  have hmem : o ∈ ps.filterMap fun p => p.occurrence? text :=
    List.mem_filterMap.mpr ⟨p, hp, by rw [Property.occurrence?, hos, List.head?_cons]⟩
  rw [firstOccurrence?]
  split
  case h_1 hnil =>
    rw [hnil] at hmem
    cases hmem
  case h_2 => exact ⟨_, rfl⟩

/-- Where a bucket has a token, the edit leaves its own token at a place of its own. -/
theorem exists_tokenAt_spacingEdit {m : SpacingMapping} {token text : List Char} {q : Property}
    (htoken : trim m.token.toList = token) (hne : token ≠ [])
    (hq : Bucket.of q = Bucket.of m.property) (hocc : q.occurrences text ≠ []) :
    ∃ a b, TokenAt a token b ((spacingEdit m).after text) := by
  obtain ⟨o, ho⟩ := exists_firstOccurrence (Bucket.mem_members.mpr hq) hocc
  obtain ⟨p, -, hmem⟩ := exists_of_firstOccurrence ho
  obtain ⟨a, b, hplace, -, heq⟩ := mem_occurrences_iff.mp hmem
  have hstart : o.start = a.length := by rw [heq]
  obtain rfl := hplace.text_eq
  have hempty : token.isEmpty = false := by simpa using hne
  rw [Edit.after, spacingEdit, htoken]
  simp only [hempty, Bool.false_eq_true, if_false, ho, Option.bind_eq_bind, Option.bind_some]
  split
  case isTrue heq => exact ⟨a, b, by rw [← heq]; rfl, hplace.lead, hplace.trail⟩
  case isFalse =>
    rw [Option.map_some, Option.getD_some, Occurrence.replaceIn_append hstart]
    exact ⟨a, b, rfl, hplace.lead, hplace.trail⟩

/-- Written tokens stay where they are when reserved names are renamed. -/
theorem holdsToken_of_renaming {p : Property} {n : Nat} {a b text : List Char}
    (h : TokenAt a (p.token n).toList b text) :
    holdsToken ((reservedEdit "cva".toList "type" "inputType").after text) (p.token n).toList
      = true := by
  obtain rfl := h.text_eq
  obtain ⟨a', b', htext, hlast, hhead⟩ := exists_builtinRenaming (not_wordIn_type p n)
    (wordAt_of_isLead h.lead) (wordAt_of_isTrail h.trail)
  exact holdsToken_iff.mpr ⟨a', b', htext, hlast ▸ h.lead, hhead ▸ h.trail⟩

/-- A mapping set with one token asks for one edit and the renaming. -/
theorem applyMappings_spacing (m : SpacingMapping) (text : List Char) :
    applyMappings text { spacing := [m] } Policy.builtin
      = (reservedEdit "cva".toList "type" "inputType").after ((spacingEdit m).after text) := by
  have hedits : spacingEdits [m] = [spacingEdit m] := rfl
  have hbefore : beforeRenaming text { spacing := [m] } Policy.builtin
      = (spacingEdit m).after text := by
    simp only [beforeRenaming, runPasses, Pass.edits, hedits]
    exact runEdits_cons _ [] _
  rw [applyMappings_eq, reservedEdits_builtin, hbefore]

/-- Choosing what a spacing issue suggests asks for that token. -/
theorem addChoice_suggestion {i : Issue} {p : Property} {n : Nat}
    (htarget : i.target = some (.utility p)) (hsuggestion : i.suggestion = p.token n) :
    ({} : MappingSet).addChoice i i.suggestion = { spacing := [⟨i.id, p, p.token n⟩] } := by
  simp only [MappingSet.addChoice, htarget, hsuggestion, ite_self, trimmed_token, List.nil_append]

/-! ## Satisfied groups -/

theorem satisfiesSpacing_of_holdsToken {source : List Char} {p : Property} {n : Nat}
    {pixels : List Nat} (h : holdsToken source (p.token n).toList = true) :
    satisfiesSpacing source (p, n :: pixels) = true := by
  rw [satisfiesSpacing, List.any_cons, h, Bool.or_true, Bool.true_or, Bool.true_or]

/-! ## The fix -/

/-- With the builtin policy a spacing fix settles its property, provided that the source has a
token of the property's bucket. -/
theorem spacing_settled_of_fix {source : List Char} {spec : Spec} {shown : Option (List Char)}
    {i : Issue}
    (hi : i ∈ (ExtractionInput.ofValidated source spec Policy.builtin shown).issues)
    (hkind : i.kind = .spacing) :
    ∃ p, i.target = some (.utility p) ∧
      ((∃ q, Bucket.of q = Bucket.of p ∧ q.occurrences source ≠ []) →
        ∃ m, MappingSet.ofSelection
            (ExtractionInput.ofValidated source spec Policy.builtin shown).issues
            [(i.id, i.suggestion)] = .ok m ∧
          ∀ s ∈ (validate (applyMappings source m Policy.builtin) spec
            Policy.builtin).spacingIssues, ¬(p.name ++ ": ").toList <+: s.toList) := by
  have hselect := ExtractionInput.ofSelection_issue hi i.suggestion
  obtain ⟨p, n, pixels, hgap, htarget, hsuggestion⟩ :=
    ExtractionInput.exists_of_spacing_issue hi hkind
  refine ⟨p, htarget, ?_⟩
  rintro ⟨q, hq, hocc⟩
  refine ⟨_, hselect, ?_⟩
  rw [addChoice_suggestion htarget hsuggestion, applyMappings_spacing]
  obtain ⟨a, b, hplace⟩ := exists_tokenAt_spacingEdit (m := ⟨i.id, p, p.token n⟩)
    (trim_token p n) (token_ne_nil p n) hq hocc
  have hholds := holdsToken_of_renaming hplace
  intro s hs hprefix
  obtain ⟨g, hg, rfl⟩ := List.mem_map.mp hs
  obtain ⟨hmem, hgap'⟩ := List.mem_filter.mp hg
  have heq := (wellGrouped_spacingGroups spec.spacing).eq_of_mem hmem (List.mem_filter.mp hgap).1
    (eq_of_prefix_spacingIssue hprefix)
  rw [heq, satisfiesSpacing_of_holdsToken hholds] at hgap'
  cases hgap'

/-- A component with a padding on both axes and a dimension that is named like an attribute. -/
def paddedSource : List Char :=
  ("cva(\"bg-primary p-2\", \x7b variants: \x7b type: \x7b text: \"h-9\" \x7d \x7d \x7d);\n").toList

def paddedInput : ExtractionInput :=
  .ofValidated paddedSource { spacing := ["Horizontal padding: 17px"] } Policy.builtin none

theorem spacing_settled_of_fix_padded :
    ∃ i ∈ paddedInput.issues, i.kind = .spacing ∧ ∃ m,
      MappingSet.ofSelection paddedInput.issues [(i.id, i.suggestion)] = .ok m ∧
        ∀ s ∈ (validate (applyMappings paddedSource m Policy.builtin) paddedInput.spec
          Policy.builtin).spacingIssues, ¬"padding-x: ".toList <+: s.toList := by
  have hissues : paddedInput.issues.map (fun i => (i.kind, i.target))
      = [(.spacing, some (.utility .paddingX))] := by
    decide
  obtain ⟨i, hi, hfound⟩ := List.map_eq_singleton_iff.mp hissues
  obtain ⟨hkind, htarget⟩ := Prod.mk.inj hfound
  have hmem : i ∈ paddedInput.issues := hi ▸ List.mem_singleton_self i
  obtain ⟨p, hp, hsettled⟩ := spacing_settled_of_fix hmem hkind
  obtain rfl : Property.paddingX = p := by simpa [htarget] using hp
  exact ⟨i, hmem, hkind, hsettled ⟨.padding, by decide, by decide⟩⟩

end DesignTokens
