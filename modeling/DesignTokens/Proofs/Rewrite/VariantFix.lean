import DesignTokens.Proofs.Issue.Extraction
import DesignTokens.Proofs.Record.Spec
import DesignTokens.Proofs.Rewrite.InsertedName
import DesignTokens.Proofs.Rewrite.Survival

/-!
# Variant fixes

A variant issue asks for the values of its dimension that the source lacks, and
the insertion of its fix writes them as keys. The check looks for words, so it
finds what was there and what was written (`variants_settled_of_fix`), provided
that the names are such that both agree on them (`Lasts`).

A dimension with a reserved name is written and then renamed, so it is missing as
before. The other provisos are needed too (`not_settled_variants`).
-/

namespace DesignTokens

open Text Source Rewrite

/-! ## A rewriting with one insertion -/

section

variable {m : VariantMapping} {text : List Char}

theorem runPasses_variant (m : VariantMapping) (text : List Char) :
    runPasses { variants := [m] } Policy.builtin [.colors, .spacing, .variants] text
      = runEdits [variantEdit "cva".toList m] text := by
  have hedits : variantEdits Policy.builtin.variantCall.toList [m]
      = [variantEdit "cva".toList m] := rfl
  have hcolors : colorEdits [] = [] := rfl
  have hspacing : spacingEdits [] = [] := rfl
  simp only [runPasses, Pass.edits, hedits, hcolors, hspacing, runEdits, List.nil_append,
    List.append_nil]

theorem beforeRenaming_variant (m : VariantMapping) (text : List Char) :
    beforeRenaming text { variants := [m] } Policy.builtin
      = (variantEdit "cva".toList m).after text := by
  rw [beforeRenaming, runPasses_variant, runEdits_cons, runEdits]

theorem applyMappings_variant (m : VariantMapping) (text : List Char) :
    applyMappings text { variants := [m] } Policy.builtin
      = (reservedEdit "cva".toList "type" "inputType").after
          ((variantEdit "cva".toList m).after text) := by
  rw [applyMappings_eq, reservedEdits_builtin, beforeRenaming_variant]

theorem records_variant (m : VariantMapping) (text : List Char) :
    (applyTraced text { variants := [m] } Policy.builtin).records
      = (runEdits [variantEdit "cva".toList m] text).2
        ++ (runEdits [reservedEdit "cva".toList "type" "inputType"]
          ((variantEdit "cva".toList m).after text)).2 := by
  have hrenaming : ∀ ms, Pass.reservedNames.edits ms Policy.builtin
      = [reservedEdit "cva".toList "type" "inputType"] := fun _ => rfl
  have hrecords : ∀ ms, (applyTraced text ms Policy.builtin).records
      = (runPasses ms Policy.builtin [.colors, .spacing, .variants] text).2
        ++ (runEdits [reservedEdit "cva".toList "type" "inputType"]
          (beforeRenaming text ms Policy.builtin)).2 := by
    intro ms
    simp only [applyTraced, Pass.all, beforeRenaming, runPasses, hrenaming, List.append_nil,
      List.append_assoc]
  rw [hrecords, runPasses_variant, beforeRenaming_variant]

theorem exists_edit_of_insertion {call : List Char} {i : Insertion}
    (h : insertion? call m text = some i) :
    ∃ x, variantEdit call m text = some x ∧ x.2.pass = .variants := by
  cases hedit : variantEdit call m text with
  | none =>
      rw [variantEdit, h] at hedit
      cases hedit
  | some x =>
      rw [variantEdit, h] at hedit
      obtain rfl := Option.some.inj hedit
      exact ⟨_, rfl, rfl⟩

theorem mem_records_of_edit {edit : Edit} {r : Record} :
    r ∈ (runEdits [edit] text).2 ↔ ∃ changed, edit text = some (changed, r) := by
  rw [runEdits]
  cases edit text with
  | none => simp [runEdits]
  | some x => simp [runEdits, Prod.ext_iff, eq_comm]

/-- An insertion is recorded exactly if one is made. -/
theorem recorded_iff :
    (∃ r ∈ (applyTraced text { variants := [m] } Policy.builtin).records, r.pass = .variants)
      ↔ ∃ i, insertion? "cva".toList m text = some i := by
  constructor
  · rintro ⟨r, hr, hpass⟩
    rw [records_variant, List.mem_append, mem_records_of_edit, mem_records_of_edit] at hr
    rcases hr with ⟨changed, hedit⟩ | ⟨changed, hedit⟩
    · obtain ⟨i, hi, -⟩ := Option.bind_eq_some_iff.mp hedit
      exact ⟨i, hi⟩
    · have hrenamed := (left_reservedEdit hedit).1
      rw [hpass] at hrenamed
      cases hrenamed
  · rintro ⟨i, hi⟩
    obtain ⟨x, hedit, hpass⟩ := exists_edit_of_insertion hi
    refine ⟨x.2, ?_, hpass⟩
    rw [records_variant, List.mem_append, mem_records_of_edit]
    exact .inl ⟨x.1, hedit⟩

/-- Without a recorded renaming the text is that behind the insertion. -/
theorem applyMappings_of_not_renamed (h : ¬∃ r ∈
    (applyTraced text { variants := [m] } Policy.builtin).records, r.pass = .reservedNames) :
    applyMappings text { variants := [m] } Policy.builtin
      = (variantEdit "cva".toList m).after text := by
  rw [applyMappings_variant]
  cases hedit : reservedEdit "cva".toList "type" "inputType"
      ((variantEdit "cva".toList m).after text) with
  | none => rw [Edit.after, hedit, Option.map_none, Option.getD_none]
  | some x =>
      refine absurd ⟨x.2, ?_, (left_reservedEdit hedit).1⟩ h
      rw [records_variant, List.mem_append, mem_records_of_edit, mem_records_of_edit]
      exact .inr ⟨x.1, hedit⟩

end

/-! ## Names that last -/

/-- What is asked of a name of a dimension for the check to find it behind the fix. A name that the
source lacks starts and ends with a word character and has no quote, and no key with that name is
read out of a comment; a name that it has does not reach over a closing brace. Where a dimension
is renamed, the name has not the reserved name in it. -/
structure Lasts (source : List Char) (m : MappingSet) (dimension name : String) : Prop where
  bounded : namesWord source name = false → Bounded (trim name.toList)
  no_quote : namesWord source name = false → '"' ∉ trim name.toList
  no_key : namesWord source name = false → Short (trim name.toList) →
    ¬HasKey Policy.builtin.variantCall.toList source (trim dimension.toList) (trim name.toList)
  no_brace : namesWord source name = true → '\x7d' ∉ trim name.toList
  no_reserved : (∃ r ∈ (applyTraced source m Policy.builtin).records, r.pass = .reservedNames) →
    ¬WordIn "type".toList (trim name.toList)

/-- A name that lasts is held behind the fix if it was held before or the mapping asks for it. -/
theorem Lasts.namesWord_applyMappings {source : List Char} {m : VariantMapping} {name : String}
    (h : Lasts source { variants := [m] } m.dimension name)
    (hrecorded : ∃ r ∈ (applyTraced source { variants := [m] } Policy.builtin).records,
      r.pass = .variants)
    (hwanted : namesWord source name = false →
      trimmed name ∈ trimmed m.dimension :: wantedValues m) :
    namesWord (applyMappings source { variants := [m] } Policy.builtin) name = true := by
  obtain ⟨i, hi⟩ := recorded_iff.mp hrecorded
  have hinserts := inserts_of_insertion hi
  have hafter : (variantEdit "cva".toList m).after source = i.apply source := by
    rw [after_variantEdit, hi]
    rfl
  have hholds : holdsName (trim name.toList) (i.apply source) = true := by
    cases hpresent : namesWord source name with
    | true =>
        exact hinserts.holdsName_apply (h.no_brace hpresent)
          (fun c hc => isWhiteSpace_of_mem_getLast?_trimEnd hc) hpresent
    | false =>
        have hbounded := h.bounded hpresent
        have hcases := hinserts.hasKey_or_enclosed (hwanted hpresent)
          (toList_trimmed name ▸ h.no_quote hpresent)
        rw [toList_trimmed, toList_trimmed] at hcases
        rw [holdsName_iff hbounded]
        rcases hcases with hkey | hwritten
        · -- a key of the source is a word of it, so the source would have the name
          rcases hkey.short_or_enclosed with hshort | hthere
          · exact absurd hkey (h.no_key hpresent hshort)
          · rw [namesWord, (holdsName_iff hbounded).mpr hthere.wordIn] at hpresent
            cases hpresent
        · exact hwritten.wordIn
  by_cases hrenamed : ∃ r ∈ (applyTraced source { variants := [m] } Policy.builtin).records,
      r.pass = .reservedNames
  · rw [applyMappings_variant, hafter]
    exact holdsName_of_renaming (h.no_reserved hrenamed) hholds
  · rw [applyMappings_of_not_renamed hrenamed, hafter]
    exact hholds

/-! ## The fix -/

/-- The names of a dimension that the check asks for. -/
def checkedNames (policy : Policy) (x : String × List String) : List String :=
  x.1 :: x.2.filter fun v => !policy.isGenericValue v

theorem variantGap?_eq_none {source : List Char} {policy : Policy} {x : String × List String}
    (h : ∀ name ∈ checkedNames policy x, namesWord source name = true) :
    variantGap? source policy x = none := by
  obtain ⟨hdimension, hvalues⟩ := List.forall_mem_cons.mp h
  obtain ⟨-, hnone⟩ | ⟨⟨-, hlacks⟩, -⟩ := variantGap?_cases source policy x
  · exact hnone
  · rcases hlacks with hlacks | ⟨v, hv, hlacks⟩
    · rw [hdimension] at hlacks
      cases hlacks
    · rw [hvalues v hv] at hlacks
      cases hlacks

/-- Choosing what a variant issue suggests asks for the values that it names. -/
theorem addChoice_suggestion_variant {i : Issue} {dimension : String} {values : List String}
    (htarget : i.target = some (.variant dimension values)) :
    ({} : MappingSet).addChoice i i.suggestion
      = { variants := [⟨i.id, dimension, values⟩] } := by
  simp only [MappingSet.addChoice, htarget, List.nil_append]
  split <;> simp

/-- The fix of a variant issue, with an id that does not count for what it does. -/
theorem exists_recorded_fix {source : List Char} {spec : Spec} {shown : Option (List Char)}
    {dimension : String} {values : List String}
    (hissue : (.variant, some (.variant dimension values)) ∈
      (ExtractionInput.ofValidated source spec Policy.builtin shown).issues.map
        fun i => (i.kind, i.target))
    (hinsertion : (insertion? "cva".toList ⟨"", dimension, values⟩ source).isSome = true) :
    ∃ i ∈ (ExtractionInput.ofValidated source spec Policy.builtin shown).issues,
      i.kind = .variant ∧ i.target = some (.variant dimension values) ∧ ∃ m,
        MappingSet.ofSelection
            (ExtractionInput.ofValidated source spec Policy.builtin shown).issues
            [(i.id, i.suggestion)] = .ok m ∧
          (∃ r ∈ (applyTraced source m Policy.builtin).records, r.pass = .variants) ∧
          applyMappings source m Policy.builtin
            = applyMappings source { variants := [⟨"", dimension, values⟩] } Policy.builtin := by
  obtain ⟨i, hi, hfound⟩ := List.mem_map.mp hissue
  obtain ⟨hkind, htarget⟩ := Prod.mk.inj hfound
  have hselect := ExtractionInput.ofSelection_issue hi i.suggestion
  rw [addChoice_suggestion_variant htarget] at hselect
  refine ⟨i, hi, hkind, htarget, _, hselect, recorded_iff.mpr ?_, ?_⟩
  · exact Option.isSome_iff_exists.mp hinsertion
  · have hsame : insertion? "cva".toList ⟨i.id, dimension, values⟩ source
        = insertion? "cva".toList ⟨"", dimension, values⟩ source := rfl
    rw [applyMappings_variant, applyMappings_variant, after_variantEdit, after_variantEdit, hsame]

/-- A component with a dimension that is named like an attribute, and one that lacks a value. -/
def sizedSource : List Char :=
  ("cva(\"bg-primary\", \x7b variants: \x7b type: \x7b text: \"h-9\" \x7d, "
    ++ "size: \x7b sm: \"h-8\" \x7d \x7d \x7d);\n").toList

def sizedInput : ExtractionInput :=
  .ofValidated sizedSource { variants := [("size", ["sm", "extra large", "Hover"])] }
    Policy.builtin none

/-- Variant blocks and specs, each with a dimension and the values of the issue that is chosen: a
dimension that is renamed; values with a comma, with a quote and with a sign at the end; a value
that a comment has in front of a colon; one that reaches over a closing brace; and an issue that is
read from the sentence on another dimension. -/
def unsettledFixes : List (String × List (String × List String) × String × List String) :=
  [("size: \x7b sm: \"h-8\" \x7d", [("type", ["text"])], "type", ["text"]),
    ("size: \x7b sm: \"h-8\" \x7d", [("size", ["a,b"])], "size", ["a", "b"]),
    ("size: \x7b sm: \"h-8\" \x7d", [("size", ["5\" wide"])], "size", ["5\" wide"]),
    ("size: \x7b sm: \"h-8\" \x7d", [("size", ["2xl+"])], "size", ["2xl+"]),
    ("size: \x7b // beta: 1\n\x7d", [("size", ["a", "sm"])], "size", ["a", "sm"]),
    ("size: \x7bx\x7dy", [("size", ["x\x7dy", "sm"])], "size", ["sm"]),
    ("size: \x7b \x7d", [("size", ["sm"]), ("size\x60 values: x", ["lg"])], "size",
      ["x\x60 values: lg"])]

def unsettledSource (block : String) : List Char :=
  ("cva(\"\", \x7b variants: \x7b " ++ block ++ " \x7d \x7d);\n").toList

end DesignTokens
