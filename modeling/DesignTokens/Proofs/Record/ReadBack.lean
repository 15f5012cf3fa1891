import DesignTokens.Proofs.Json.Indented
import DesignTokens.Proofs.Policy
import DesignTokens.Proofs.Record.Spec
import DesignTokens.Record.Parse

/-!
# Records written and read back

Every record of the library is read back from its text, in either layout
(`readBack_records`). For each record there are two facts: its value can be
written (`writable`), and its reader finds it again in the document that the
value says (`read_write`).

What a record must satisfy is what its fields can hold: the dimensions of a spec
have distinct names, a score fits an 8-bit word, a number of pixels fits a 32-bit
word and a place fits a 64-bit word. The renamings of a policy stand in the
order of their names.
-/

namespace DesignTokens

open Json

/-- A record is read from its compact text and from its indented text. -/
def ReadsBack {α : Type} (write : α → Value) (parse : String → Outcome α) (a : α) : Prop :=
  parse (compact (write a)) = .ok a ∧ parse (indented (write a)) = .ok a

/-- The value can be written, whatever its strings are. -/
abbrev Writable : Value → Prop := Printable fun _ => True

theorem readsBack_of_read {α : Type} {write : α → Value} {read : Reader α} {a : α}
    (hwrite : Writable (write a)) (hread : read (document (write a)) = some a) :
    ReadsBack write (parseRecord read) a := by
  have hrecord : ∀ text, parse? text = some (document (write a)) →
      parseRecord read text = .ok a := fun text htext => by
    rw [parseRecord, htext, Option.bind_some, hread]
    rfl
  exact ⟨hrecord _ (parse?_compact hwrite), hrecord _ (parse?_indented hwrite)⟩

/-! ## Values that can be written -/

theorem writable_object {members : List (String × Value)} (h : ∀ m ∈ members, Writable m.2) :
    Writable (.object members) :=
  .object (fun _ _ => trivial) h

theorem writable_strings (items : List String) : Writable (strings items) :=
  printable_strings fun _ _ => trivial

theorem writable_array {α : Type} {write : α → Value} (h : ∀ a, Writable (write a))
    (items : List α) : Writable (.array (items.map write)) := by
  refine .array fun v hv => ?_
  obtain ⟨a, -, rfl⟩ := List.mem_map.mp hv
  exact h a

theorem Spec.writable (s : Spec) : Writable s.write :=
  Spec.printable (fun _ _ => trivial) fun _ _ => trivial

theorem Report.writable (r : Report) : Writable r.write := by
  refine writable_object ?_
  simp only [List.forall_mem_cons]
  exact ⟨.bool _, .bool _, .bool _, writable_strings _, writable_strings _, writable_strings _,
    .nat _, writable_strings _, nofun⟩

/-- A written target is not deeper than a list in an object. -/
theorem Target.written (depth : Nat) (t : Target) : Written (depth + 2) t.write := by
  cases t with
  | color literal =>
      refine .object (show ["kind", "literal"].Nodup by decide) ?_
      simp only [List.forall_mem_cons]
      exact ⟨.string _, .string _, nofun⟩
  | utility property =>
      refine .object (show ["kind", "property"].Nodup by decide) ?_
      simp only [List.forall_mem_cons]
      exact ⟨.string _, .string _, nofun⟩
  | variant dimension values =>
      refine .object (show ["kind", "dimension", "values"].Nodup by decide) ?_
      simp only [List.forall_mem_cons]
      exact ⟨.string _, .string _, written_strings depth values, nofun⟩

theorem Target.writable (t : Target) : Writable t.write := (t.written 0).printable

theorem Issue.writable (i : Issue) : Writable i.write := by
  refine writable_object (List.forall_mem_append.mpr ⟨?_, ?_⟩)
  · simp only [List.forall_mem_cons]
    exact ⟨.string trivial, .string trivial, .string trivial, .string trivial, .string trivial,
      .string trivial, writable_strings _, .bool _, nofun⟩
  · intro m hm
    obtain ⟨t, -, rfl⟩ := Option.map_eq_some_iff.mp (Option.mem_toList.mp hm)
    exact t.writable

theorem ColorMapping.writable (m : ColorMapping) : Writable m.write := by
  refine writable_object ?_
  simp only [List.forall_mem_cons]
  exact ⟨.string trivial, .string trivial, .string trivial, nofun⟩

theorem SpacingMapping.writable (m : SpacingMapping) : Writable m.write := by
  refine writable_object ?_
  simp only [List.forall_mem_cons]
  exact ⟨.string trivial, .string trivial, .string trivial, nofun⟩

theorem VariantMapping.writable (m : VariantMapping) : Writable m.write := by
  refine writable_object ?_
  simp only [List.forall_mem_cons]
  exact ⟨.string trivial, .string trivial, writable_strings _, nofun⟩

theorem MappingSet.writable (m : MappingSet) : Writable m.write := by
  refine writable_object ?_
  simp only [List.forall_mem_cons]
  exact ⟨writable_array ColorMapping.writable _, writable_array SpacingMapping.writable _,
    writable_array VariantMapping.writable _, nofun⟩

/-- A place as a value. -/
def Locator.write (l : Locator) : Value :=
  .object [("line", .nat l.line), ("column", .nat l.column), ("context", .string l.context)]

theorem Locator.writable (l : Locator) : Writable l.write := by
  refine writable_object ?_
  simp only [List.forall_mem_cons]
  exact ⟨.nat _, .nat _, .string trivial, nofun⟩

theorem EditableProperty.writable (e : EditableProperty) : Writable e.write := by
  have hpixels : Writable (optionalNat e.pixels) := by
    cases e.pixels with
    | none => exact .null
    | some n => exact .nat n
  refine writable_object ?_
  simp only [List.forall_mem_cons]
  exact ⟨.string trivial, .string trivial, hpixels, e.locator.writable, nofun⟩

theorem Review.SavedComponent.writable (c : Review.SavedComponent) : Writable c.write := by
  refine writable_object ?_
  simp only [List.forall_mem_cons]
  exact ⟨.string trivial, .string trivial, c.spec.writable, .string trivial, c.report.writable,
    c.mappings.writable, nofun⟩

theorem Policy.writable (p : Policy) : Writable p.write := by
  have hreserved : Writable
      (.object (p.reserved.map fun x => (x.1, .string x.2))) := by
    refine writable_object fun m hm => ?_
    obtain ⟨x, -, rfl⟩ := List.mem_map.mp hm
    exact .string trivial
  refine writable_object ?_
  simp only [List.forall_mem_cons]
  exact ⟨.string trivial, .string trivial, writable_strings _, writable_strings _,
    writable_strings _, writable_strings _, hreserved, nofun⟩

/-! ## Readers and what was written -/

theorem readNatUpTo_nat {limit n : Nat} (h : n ≤ limit) :
    readNatUpTo limit (document (.nat n)) = some n :=
  if_pos h

theorem IssueKind.read_name (k : IssueKind) :
    IssueKind.read (document (.string k.name)) = some k := by
  cases k <;> rfl

theorem Property.read_name (p : Property) :
    Property.read (document (.string p.name)) = some p :=
  Property.ofName?_name p

/-- The score of a report fits an 8-bit word. -/
def Report.Fits (r : Report) : Prop := r.overallMatch ≤ maxByte

theorem Report.read_write {r : Report} (h : r.Fits) : Report.read (document r.write) = some r := by
  have hfields : readFields .passed
      ["hasRequiredVariants", "hasCorrectSpacing", "hasThemeColors", "missingVariants",
       "spacingIssues", "colorIssues", "overallMatch", "recommendations"] (document r.write) = some
        [some (.bool r.hasRequiredVariants), some (.bool r.hasCorrectSpacing),
         some (.bool r.hasThemeColors), some (document (strings r.missingVariants)),
         some (document (strings r.spacingIssues)), some (document (strings r.colorIssues)),
         some (document (.nat r.overallMatch)), some (document (strings r.recommendations))] := rfl
  rw [Report.read, hfields]
  simp only [Option.bind_eq_bind, Option.bind_some, required, readTexts_strings,
    readNatUpTo_nat h]
  rfl

theorem Target.read_write (depth : Nat) (t : Target) :
    Target.read (depth + 2) (document t.write) = some t := by
  have hvalue := value?_document (t.written depth)
  cases t with
  | color literal =>
      have hread : Target.read (depth + 2) (document (Target.color literal).write)
          = (value? (depth + 2) (document (Target.color literal).write)).bind fun _ =>
            Target.readKind "color" (document (.object [("literal", .string literal)])) := rfl
      rw [hread, hvalue]
      rfl
  | utility property =>
      have hread : Target.read (depth + 2) (document (Target.utility property).write)
          = (value? (depth + 2) (document (Target.utility property).write)).bind fun _ =>
            Target.readKind "utility"
              (document (.object [("property", .string property.name)])) := rfl
      have hproperty : Target.readProperty (document (.string property.name)) = some property :=
        Property.read_name property
      have hkind : Target.readKind "utility"
          (document (.object [("property", .string property.name)]))
          = (Target.readProperty (document (.string property.name))).bind (some <| .utility ·) := rfl
      rw [hread, hvalue, Option.bind_some, hkind, hproperty]
      rfl
  | variant dimension values =>
      have hread : Target.read (depth + 2) (document (Target.variant dimension values).write)
          = (value? (depth + 2) (document (Target.variant dimension values).write)).bind fun _ =>
            Target.readKind "variant" (document
              (.object [("dimension", .string dimension), ("values", strings values)])) := rfl
      have hkind : Target.readKind "variant" (document
            (.object [("dimension", .string dimension), ("values", strings values)]))
          = (readTexts (document (strings values))).bind (some <| .variant dimension ·) := rfl
      rw [hread, hvalue, Option.bind_some, hkind, readTexts_strings]
      rfl

theorem Issue.read_write (i : Issue) : Issue.read (document i.write) = some i := by
  have hfields : readFields .passed
      ["id", "type", "title", "specRequirement", "currentValue", "suggestedFix", "options",
       "isIssue", "target"] (document i.write) = some
        [some (document (.string i.id)), some (document (.string i.kind.name)),
         some (document (.string i.title)), some (document (.string i.requirement)),
         some (document (.string i.current)), some (document (.string i.suggestion)),
         some (document (strings i.options)), some (.bool i.isIssue),
         i.target.map fun t => document t.write] := by
    rw [Issue.write]
    cases i.target <;> rfl
  have htarget : withDefault none (readNullable (Target.read (maxDepth - 1)))
      (i.target.map fun t => document t.write) = some i.target := by
    cases i.target with
    | none => rfl
    | some t =>
        have hobject : readNullable (Target.read (maxDepth - 1)) (document t.write)
            = (Target.read (maxDepth - 1) (document t.write)).map some := by cases t <;> rfl
        exact hobject.trans (congrArg (Option.map some) (t.read_write (maxDepth - 3)))
  rw [Issue.read, hfields]
  simp only [Option.bind_eq_bind, Option.bind_some, required, readTexts_strings,
    IssueKind.read_name, htarget]
  rfl

theorem ColorMapping.read_write (m : ColorMapping) :
    ColorMapping.read (document m.write) = some m := rfl

theorem SpacingMapping.read_write (m : SpacingMapping) :
    SpacingMapping.read (document m.write) = some m := by
  have hread : SpacingMapping.read (document m.write)
      = (Property.read (document (.string m.property.name))).bind
        fun p => some ⟨m.issueId, p, m.token⟩ := rfl
  rw [hread, Property.read_name]
  rfl

theorem VariantMapping.read_write (m : VariantMapping) :
    VariantMapping.read (document m.write) = some m := by
  have hread : VariantMapping.read (document m.write)
      = (readTexts (document (strings m.values))).bind
        fun values => some ⟨m.issueId, m.dimension, values⟩ := rfl
  rw [hread, readTexts_strings]
  rfl

theorem MappingSet.read_write (m : MappingSet) : MappingSet.read (document m.write) = some m := by
  have hread : MappingSet.read (document m.write) = (do
      let colors ← readList ColorMapping.read (document (.array (m.colors.map ColorMapping.write)))
      let spacing ← readList SpacingMapping.read
        (document (.array (m.spacing.map SpacingMapping.write)))
      let variants ← readList VariantMapping.read
        (document (.array (m.variants.map VariantMapping.write)))
      some ⟨colors, spacing, variants⟩) := rfl
  rw [hread, readList_written ColorMapping.read_write, readList_written SpacingMapping.read_write,
    readList_written VariantMapping.read_write]
  rfl

/-- The numbers of an editable property fit the words they are kept in. -/
structure EditableProperty.Fits (e : EditableProperty) : Prop where
  pixels : ∀ n ∈ e.pixels, n ≤ maxPixels
  line : e.locator.line ≤ maxLongWord
  column : e.locator.column ≤ maxLongWord

theorem Locator.read_write {l : Locator} (hline : l.line ≤ maxLongWord)
    (hcolumn : l.column ≤ maxLongWord) : Locator.read (document l.write) = some l := by
  have hread : Locator.read (document l.write) = (do
      let line ← readNatUpTo maxLongWord (document (.nat l.line))
      let column ← readNatUpTo maxLongWord (document (.nat l.column))
      some ⟨line, column, l.context⟩) := rfl
  rw [hread, readNatUpTo_nat hline, readNatUpTo_nat hcolumn]
  rfl

theorem EditableProperty.read_write {e : EditableProperty} (h : e.Fits) :
    EditableProperty.read (document e.write) = some e := by
  have hpixels : readNullable (readNatUpTo maxPixels) (document (optionalNat e.pixels))
      = some e.pixels := by
    cases hp : e.pixels with
    | none => rfl
    | some n => exact congrArg (Option.map some) (readNatUpTo_nat (h.pixels n hp))
  have hread : EditableProperty.read (document e.write) = (do
      let property ← Property.read (document (.string e.property.name))
      let pixels ← readNullable (readNatUpTo maxPixels) (document (optionalNat e.pixels))
      let locator ← Locator.read (document e.locator.write)
      some ⟨property, e.token, pixels, locator⟩) := rfl
  rw [hread, Property.read_name, hpixels, Locator.read_write h.line h.column]
  rfl

/-- The spec and the score of a saved component are such as their fields can hold. -/
structure Review.SavedComponent.Fits (c : Review.SavedComponent) : Prop where
  spec : c.spec.Distinct
  report : c.report.Fits

theorem Review.SavedComponent.read_write {c : Review.SavedComponent} (h : c.Fits) :
    Review.SavedComponent.read (document c.write) = some c := by
  have hread : Review.SavedComponent.read (document c.write) = (do
      let spec ← Spec.read (document c.spec.write)
      let report ← Report.read (document c.report.write)
      let mappings ← MappingSet.read (document c.mappings.write)
      some ⟨c.name, c.savedAt, spec, c.source, report, mappings⟩) := rfl
  rw [hread, Spec.read_write h.spec, Report.read_write h.report, MappingSet.read_write]
  rfl

/-! ## Policies -/

/-- The renamings of the policy stand in the order of their names. -/
def Policy.Ordered (p : Policy) : Prop := p.reserved.Pairwise fun a b => a.1 < b.1

theorem sortByName_of_pairwise {α : Type} {members : List (String × α)}
    (h : members.Pairwise fun a b => a.1 < b.1) : sortByName members = members :=
  List.mergeSort_of_pairwise (h.imp fun hlt => decide_eq_true (Std.le_of_lt hlt))

theorem Policy.readUnchecked_write {p : Policy} (h : p.Ordered) :
    Policy.readUnchecked (document p.write) = some p := by
  have hreserved : readMap readText
      (document (.object (p.reserved.map fun x => (x.1, .string x.2))))
      = some p.reserved :=
    readMap_written (fun _ => rfl) (List.pairwise_map.mpr (h.imp String.ne_of_lt))
  have hfields : readFields .refused
      ["schema_version", "variant_call", "interaction_state_dimensions", "generic_state_values",
       "color_reference_prefixes", "theme_color_tokens", "reserved_attributes"]
      (document p.write) = some
        [some (document (.string p.schemaVersion)), some (document (.string p.variantCall)),
         some (document (strings p.interactionDimensions)),
         some (document (strings p.genericValues)), some (document (strings p.colorReferences)),
         some (document (strings p.themeTokens)),
         some (document (.object (p.reserved.map fun x => (x.1, .string x.2))))] := rfl
  rw [Policy.readUnchecked, hfields]
  simp only [Option.bind_eq_bind, Option.bind_some, required, readTexts_strings, hreserved,
    sortByName_of_pairwise h]
  rfl

theorem Policy.readsBack {p : Policy} (hfault : p.fault? = none) (h : p.Ordered) :
    ReadsBack Policy.write Policy.parse p := by
  have hpolicy : ∀ text, parse? text = some (document p.write) → Policy.parse text = .ok p :=
    fun text htext => by
      rw [Policy.parse, htext]
      change Policy.ofDocument (document p.write) = .ok p
      rw [Policy.ofDocument, Policy.readUnchecked_write h]
      change p.checked = .ok p
      rw [Policy.checked, hfault]
  exact ⟨hpolicy _ (parse?_compact p.writable), hpolicy _ (parse?_indented p.writable)⟩

/-- Every record that its fields can hold is read back as it was written. -/
theorem readBack_records :
    (∀ s : Spec, s.Distinct → ReadsBack Spec.write (parseRecord Spec.read) s) ∧
      (∀ i : Issue, ReadsBack Issue.write (parseRecord Issue.read) i) ∧
      (∀ m : MappingSet, ReadsBack MappingSet.write (parseRecord MappingSet.read) m) ∧
      (∀ e : EditableProperty, e.Fits →
        ReadsBack EditableProperty.write (parseRecord EditableProperty.read) e) ∧
      (∀ c : Review.SavedComponent, c.Fits →
        ReadsBack Review.SavedComponent.write (parseRecord Review.SavedComponent.read) c) ∧
      ∀ p : Policy, p.fault? = none → p.Ordered → ReadsBack Policy.write Policy.parse p :=
  ⟨fun s h => readsBack_of_read s.writable (Spec.read_write h),
    fun i => readsBack_of_read i.writable i.read_write,
    fun m => readsBack_of_read m.writable m.read_write,
    fun e h => readsBack_of_read e.writable (EditableProperty.read_write h),
    fun c h => readsBack_of_read c.writable (Review.SavedComponent.read_write h),
    fun _ hfault h => Policy.readsBack hfault h⟩

/-- A component with escapes, repeated values and a full score. -/
def sampleComponent : Review.SavedComponent where
  name := "Knopf \"ß\"\n"
  savedAt := "2026-01-01T00:00:00.000Z"
  spec := { name := "Knopf", variants := [("type", ["ghost", "ghost"]), ("size", [])] }
  source := "\x7b \\ \x00 \x7d"
  report := ⟨true, false, true, [], ["height"], [], 255, []⟩
  mappings :=
    { colors := [⟨"a", "#FFF", ""⟩], spacing := [⟨"b", .paddingX, "px-2"⟩]
      variants := [⟨"c", "size", ["lg"]⟩] }

theorem readBack_samples :
    ReadsBack Spec.write (parseRecord Spec.read) sampleComponent.spec ∧
      ReadsBack Issue.write (parseRecord Issue.read)
        ⟨"a", .spacing, "t", "r", "c", "s", [], true, some (.utility .paddingX)⟩ ∧
      ReadsBack MappingSet.write (parseRecord MappingSet.read) sampleComponent.mappings ∧
      ReadsBack EditableProperty.write (parseRecord EditableProperty.read)
        ⟨.gap, "gap-2", some 4294967295, 1, 18446744073709551615, ""⟩ ∧
      ReadsBack Review.SavedComponent.write (parseRecord Review.SavedComponent.read)
        sampleComponent ∧
      ReadsBack Policy.write Policy.parse Policy.builtin := by
  obtain ⟨hspec, hissue, hmappings, hproperty, hcomponent, hpolicy⟩ := readBack_records
  have hdistinct : sampleComponent.spec.Distinct :=
    show ["type", "size"].Nodup by decide
  have hfits : sampleComponent.report.Fits := Nat.le_refl 255
  refine ⟨hspec _ hdistinct, hissue _, hmappings _, hproperty _ ⟨?_, by decide, by decide⟩,
    hcomponent _ ⟨hdistinct, hfits⟩, hpolicy _ Policy.fault?_builtin (List.pairwise_singleton ..)⟩
  intro n hn
  cases hn
  exact Nat.le_refl _

end DesignTokens
