import DesignTokens.Proofs.Issue.Extraction
import DesignTokens.Proofs.Rewrite.Reference

/-!
# Color fixes

Every suggestion for a literal color is a token with a slot, so the mapping set
of all color fixes leaves no literal color (`themeColors_of_colorFixes`). Whether
the result passes the check of theme colors then hangs on a reference alone. One
that the source has stays, and so does one that a fix writes; but a suggestion,
or its slot behind the name of another utility, need not be a reference that the
policy knows (`not_themeColors_of_colorFixes`).
-/

namespace DesignTokens

open Text Rewrite

/-! ## Suggested tokens -/

instance (token : List Char) : Decidable (IsSlotToken token) :=
  decidable_of_iff ((themeSlot? token).isSome = true ∧
      ∀ c ∈ token, c.isAlphanum = true ∨ c = '-')
    ⟨fun h => ⟨h.1, h.2⟩, fun h => ⟨h.slot, h.plain⟩⟩

theorem isSlotToken_themeTokenFor (purpose : String) :
    IsSlotToken (themeTokenFor purpose).toList := by
  have hslots : ∀ slot ∈ themeSlots, IsSlotToken ("border-" ++ slot).toList ∧
      IsSlotToken ("text-" ++ slot ++ "-foreground").toList ∧
      IsSlotToken ("bg-" ++ slot).toList := by
    decide
  have hmem : (themeSlots.find? fun word => holds word.toList (lowered purpose.toList)).getD
      "primary" ∈ themeSlots := by
    cases h : themeSlots.find? fun word => holds word.toList (lowered purpose.toList) with
    | none => decide
    | some slot => exact List.mem_of_find?_eq_some h
  obtain ⟨hborder, htext, hbg⟩ := hslots _ hmem
  rw [themeTokenFor]
  dsimp only
  split
  · exact hborder
  · split
    · split
      · decide
      · exact htext
    · split
      · decide
      · exact hbg

theorem Rewrite.IsSlotToken.trim_eq {token : List Char} (h : IsSlotToken token) :
    trim token = token := by
  refine trim_of_forall_not fun c hc => ?_
  rcases h.plain c hc with hword | rfl
  · exact isWhiteSpace_of_isWord (by rw [isWord, hword, Bool.true_or])
  · decide

namespace ExtractionInput

variable {source : List Char} {spec : Spec} {shown : Option (List Char)}

theorem isSlotToken_suggestion (l : String) :
    IsSlotToken (((ofValidated source spec Policy.builtin shown).literalColorIssue
      l).suggestion).toList := by
  have hdefault : IsSlotToken "bg-primary".toList := by decide
  rw [literalColorIssue]
  dsimp only
  cases (ofValidated source spec Policy.builtin shown).declaredColor? l with
  | none => exact hdefault
  | some d => exact isSlotToken_themeTokenFor d.1

/-! ## Choosing every color issue -/

/-- The color issues that rewrite something. -/
def colorFixes (e : ExtractionInput) : List Issue :=
  e.issues.filter fun i => i.kind = .color && i.target.isSome

theorem colorFixes_sublist (e : ExtractionInput) : e.colorFixes.Sublist e.issues :=
  List.filter_sublist

end ExtractionInput

/-- What choosing the suggestion of a color issue writes. -/
def Issue.colorMapping? (i : Issue) : Option ColorMapping :=
  match i.target with
  | some (.color literal) => some ⟨i.id, literal, trimmed i.suggestion⟩
  | _ => none

theorem foldl_addChoice_color : ∀ {is : List Issue} {m : MappingSet},
    (∀ i ∈ is, ∃ l, i.target = some (.color l)) →
      is.foldl (fun m i => m.addChoice i i.suggestion) m
        = { m with colors := m.colors ++ is.filterMap Issue.colorMapping? }
  | [], m, _ => by simp
  | i :: is, m, h => by
      obtain ⟨⟨l, hl⟩, his⟩ := List.forall_mem_cons.mp h
      have hmapping : i.colorMapping? = some ⟨i.id, l, trimmed i.suggestion⟩ := by
        rw [Issue.colorMapping?, hl]
      rw [List.foldl_cons, foldl_addChoice_color his, List.filterMap_cons, hmapping]
      simp only [MappingSet.addChoice, hl, ite_self, List.append_assoc, List.singleton_append]

section

variable {source : List Char} {spec : Spec} {shown : Option (List Char)}

open ExtractionInput

theorem exists_of_mem_colorFixes {i : Issue}
    (hi : i ∈ (ofValidated source spec Policy.builtin shown).colorFixes) :
    ∃ l ∈ literalColors source, i.target = some (.color l) ∧ IsSlotToken i.suggestion.toList := by
  obtain ⟨hi, hfix⟩ := List.mem_filter.mp hi
  simp only [Bool.and_eq_true, decide_eq_true_eq, Option.isSome_iff_ne_none] at hfix
  obtain ⟨l, hl, htarget, hsuggestion⟩ := exists_of_color_issue hi hfix.1 hfix.2
  exact ⟨l, hl, htarget, hsuggestion ▸ isSlotToken_suggestion l⟩

/-- The mapping set of all color fixes. -/
def ExtractionInput.colorMappings (e : ExtractionInput) : MappingSet where
  colors := e.colorFixes.filterMap Issue.colorMapping?

theorem ofSelection_colorFixes :
    MappingSet.ofSelection (ofValidated source spec Policy.builtin shown).issues
        ((ofValidated source spec Policy.builtin shown).colorFixes.map fun i =>
          (i.id, i.suggestion))
      = .ok (ofValidated source spec Policy.builtin shown).colorMappings := by
  have htargets : ∀ i ∈ (ofValidated source spec Policy.builtin shown).colorFixes,
      ∃ l, i.target = some (.color l) := by
    intro i hi
    obtain ⟨l, -, hl, -⟩ := exists_of_mem_colorFixes hi
    exact ⟨l, hl⟩
  rw [ofSelection_issues (colorFixes_sublist _) (·.suggestion), foldl_addChoice_color htargets]
  rfl

theorem trim_hexColor {w : List Char} (h : IsHexColor w) : trim w = w := by
  obtain ⟨ds, rfl, -, -, hds⟩ := h
  refine trim_of_forall_not fun c hc => ?_
  rcases List.mem_cons.mp hc with rfl | hc
  · decide
  · exact isWhiteSpace_of_isWord (isWord_of_isHexDigit (hds c hc))

/-- The mapping set of all color fixes asks for slot tokens and for nothing else. -/
theorem onlyThemed_colorMappings (source : List Char) (spec : Spec) (shown : Option (List Char)) :
    OnlyThemed (ofValidated source spec Policy.builtin shown).colorMappings where
  colors := by
    intro c hc
    obtain ⟨i, hi, hmapping⟩ := List.mem_filterMap.mp hc
    obtain ⟨l, hl, htarget, htoken⟩ := exists_of_mem_colorFixes hi
    rw [Issue.colorMapping?, htarget] at hmapping
    obtain rfl := Option.some.inj hmapping
    have hhex := (mem_literalColors_iff.mp hl).1
    refine ⟨(trim_hexColor hhex).symm ▸ hhex, ?_⟩
    rw [trimmed, String.toList_ofList, htoken.trim_eq, htoken.trim_eq]
    exact htoken
  spacing := rfl
  variants := rfl

/-- Every color that is written out is mapped. -/
theorem exists_colorMapping {l : String} (hl : l ∈ literalColors source) :
    ∃ c ∈ (ofValidated source spec Policy.builtin shown).colorMappings.colors,
      trim c.literal.toList = l.toList := by
  obtain ⟨i, hi, hkind, htarget⟩ : ∃ i ∈ (ofValidated source spec Policy.builtin shown).issues,
      i.kind = .color ∧ i.target = some (.color l) := exists_color_issue hl
  have hfix : i ∈ (ofValidated source spec Policy.builtin shown).colorFixes :=
    List.mem_filter.mpr ⟨hi, by simp [hkind, htarget]⟩
  refine ⟨_, List.mem_filterMap.mpr ⟨i, hfix, by rw [Issue.colorMapping?, htarget]⟩, ?_⟩
  exact trim_hexColor (mem_literalColors_iff.mp hl).1

/-! ## The fix -/

theorem literalColors_colorMappings :
    literalColors (applyMappings source
      (ofValidated source spec Policy.builtin shown).colorMappings Policy.builtin) = [] := by
  rw [List.eq_nil_iff_forall_not_mem]
  intro c hc
  have hthemed := onlyThemed_colorMappings source spec shown
  rw [hthemed.applyMappings_eq] at hc
  obtain ⟨hhex, hcolor⟩ := mem_literalColors_iff.mp hc
  have hpass := colorIn_of_renaming hhex hcolor
  have hsource := mem_literalColors_iff.mpr ⟨hhex, colorIn_of_colorEdits hthemed.colors hhex hpass⟩
  obtain ⟨m, hm, hliteral⟩ := exists_colorMapping hsource
  exact not_colorIn_colorEdits hthemed.colors m hm c.toList (by rw [hliteral]) hpass

theorem hasThemeColors_iff {text : List Char} :
    (validate text spec Policy.builtin).hasThemeColors = true
      ↔ literalColors text = [] ∧ Referenced text := by
  rw [Referenced, validate]
  cases (Policy.builtin.colorReference? text).isSome <;> simp

/-- With the builtin policy the color fixes of a source leave no literal color. The result then has
theme colors if and only if it has a reference, as it does if the source has one or if a fix writes
one at its turn. -/
theorem themeColors_of_colorFixes (source : List Char) (spec : Spec) (shown : Option (List Char)) :
    ∃ m, MappingSet.ofSelection (ofValidated source spec Policy.builtin shown).issues
        ((ofValidated source spec Policy.builtin shown).colorFixes.map fun i =>
          (i.id, i.suggestion))
          = .ok m ∧
      literalColors (applyMappings source m Policy.builtin) = [] ∧
      ((validate (applyMappings source m Policy.builtin) spec Policy.builtin).hasThemeColors = true
        ↔ Referenced (applyMappings source m Policy.builtin)) ∧
      ((Referenced source ∨ ∃ done c later v, m.colors = done ++ c :: later ∧
          Writes c (runEdits (colorEdits done) source).1 v ∧ Referenced v) →
        Referenced (applyMappings source m Policy.builtin)) := by
  refine ⟨_, ofSelection_colorFixes, literalColors_colorMappings, ?_, ?_⟩
  · rw [hasThemeColors_iff, and_iff_right literalColors_colorMappings]
  · have hthemed := onlyThemed_colorMappings source spec shown
    rw [hthemed.applyMappings_eq]
    rintro (h | ⟨done, c, later, v, hcolors, hwrites, hv⟩)
    · exact referenced_of_renaming (referenced_colorEdits hthemed.colors h)
    · have hall := hthemed.colors
      rw [hcolors] at hall ⊢
      exact referenced_of_renaming (referenced_of_writes hall hwrites hv)

/-- A component with colors in the brackets of two utilities. -/
def bracketSource : List Char := "cva(\"text-[#3B82F6] ring-[#000]\")".toList

theorem themeColors_of_colorFixes_brackets :
    ∃ m, MappingSet.ofSelection (ofValidated bracketSource {} Policy.builtin none).issues
        ((ofValidated bracketSource {} Policy.builtin none).colorFixes.map fun i =>
          (i.id, i.suggestion)) = .ok m ∧
      (validate (applyMappings bracketSource m Policy.builtin) {} Policy.builtin).hasThemeColors
        = true := by
  obtain ⟨m, hselect, -, hiff, hwrites⟩ := themeColors_of_colorFixes bracketSource {} none
  refine ⟨m, hselect, hiff.mpr (hwrites (.inr ?_))⟩
  obtain rfl := Except.ok.inj (ofSelection_colorFixes.symm.trans hselect)
  have hcolors : (ofValidated bracketSource {} Policy.builtin none).colorMappings.colors.map
      (fun c => (c.literal, c.replacement))
        = [("#3B82F6", "bg-primary"), ("#000", "bg-primary")] := by
    decide
  obtain ⟨c, later, hall, hfirst, -⟩ := List.map_eq_cons_iff.mp hcolors
  obtain ⟨hliteral, hreplacement⟩ := Prod.mk.inj hfirst
  -- the first color is written as the slot of its token behind the name in front of it
  have hslot : themeSlot? (trim c.replacement.toList) = some "primary".toList := by
    rw [hreplacement]
    decide
  have hspan : (⟨5, 14⟩ : Span)
      ∈ (bracketedPattern (trim c.literal.toList)).spans bracketSource := by
    rw [hliteral]
    decide
  exact ⟨[], c, later, _, hall, .bracketed hslot hspan, by decide⟩

/-- A color whose suggestion is no reference, and one in brackets whose utility makes none. -/
theorem not_themeColors_of_colorFixes :
    [("cva(\"border border-[#3b82f6]\")".toList, ["Primary border: #3b82f6"]),
        ("cva(\"ring ring-[#3b82f6]\")".toList, [])].Forall fun x =>
      literalColors x.1 ≠ [] ∧
      ∃ m, MappingSet.ofSelection (ofValidated x.1 { colors := x.2 } Policy.builtin none).issues
          ((ofValidated x.1 { colors := x.2 } Policy.builtin none).colorFixes.map fun i =>
            (i.id, i.suggestion)) = .ok m ∧
        (validate (applyMappings x.1 m Policy.builtin) { colors := x.2 }
          Policy.builtin).hasThemeColors = false := by
  have hfail : ∀ x ∈ [("cva(\"border border-[#3b82f6]\")".toList, ["Primary border: #3b82f6"]),
        ("cva(\"ring ring-[#3b82f6]\")".toList, [])],
      literalColors x.1 ≠ [] ∧ (validate (applyMappings x.1
        (ofValidated x.1 { colors := x.2 } Policy.builtin none).colorMappings Policy.builtin)
          { colors := x.2 } Policy.builtin).hasThemeColors = false := by
    decide
  exact List.forall_iff_forall_mem.mpr fun x hx =>
    ⟨(hfail x hx).1, _, ofSelection_colorFixes, (hfail x hx).2⟩

end

end DesignTokens
