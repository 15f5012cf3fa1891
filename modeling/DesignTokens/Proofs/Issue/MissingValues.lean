import DesignTokens.Proofs.Issue.Recovery
import DesignTokens.Proofs.Record.Spec

/-!
# When missing values are recovered

The names in a sentence on missing values stand there as they are in the spec,
and nothing marks their ends but a back quote and commas. So a sentence is read
back as it was meant just if its names are `Legible`. It can also be read as one
on another dimension, if the name of its own goes on with what stands behind a
name in a sentence (`TakenFor`). These are the two ways in which the issue of a
dimension gets lost or gets company (`missingValues_recovered_iff`).
-/

namespace DesignTokens

open Text Finding

/-! ## Sentences that come back -/

instance : DecidablePred IsItem := fun s =>
  decidable_of_iff (s ≠ "" ∧ trimmed s = s ∧ ',' ∉ s.toList ∧ '\n' ∉ s.toList)
    ⟨fun ⟨hne, htrimmed, hcomma, hnewline⟩ => ⟨hne, htrimmed, hcomma, hnewline⟩,
      fun h => ⟨h.ne_empty, h.trimmed_eq, h.no_comma, h.no_newline⟩⟩

/-- The names in a sentence on missing values can be told from what stands around them. -/
structure Legible (dimension : String) (values : List String) : Prop where
  ne_empty : dimension ≠ ""
  no_backquote : '\x60' ∉ dimension.toList
  items : ∀ v ∈ values, IsItem v

instance (dimension : String) (values : List String) : Decidable (Legible dimension values) :=
  decidable_of_iff (dimension ≠ "" ∧ '\x60' ∉ dimension.toList ∧ ∀ v ∈ values, IsItem v)
    ⟨fun ⟨hne, hquote, hitems⟩ => ⟨hne, hquote, hitems⟩,
      fun h => ⟨h.ne_empty, h.no_backquote, h.items⟩⟩

/-- The sentence on a dimension looks like one on a shorter name: its own name goes on behind that
with the end of a quoted name, and what is then taken for the list stays on one line. -/
def TakenFor (name dimension : String) (values : List String) : Prop :=
  ∃ more, dimension.toList = (name ++ "` values:").toList ++ more ∧
    '\n' ∉ skipBlanks (more ++ '\x60' :: (" values:".toList
      ++ trimEnd (' ' :: (commaList values).toList)))

instance (name dimension : String) (values : List String) :
    Decidable (TakenFor name dimension values) :=
  decidable_of_iff (∃ more ∈ after? (name ++ "` values:").toList dimension.toList,
      '\n' ∉ skipBlanks (more ++ '\x60' :: (" values:".toList
        ++ trimEnd (' ' :: (commaList values).toList))))
    (exists_congr fun _ => and_congr_left' after_eq_some_iff)

theorem TakenFor.ne {name dimension : String} {values : List String}
    (h : TakenFor name dimension values) : dimension ≠ name := by
  rintro rfl
  obtain ⟨more, hmore, -⟩ := h
  have hlength := congrArg List.length hmore
  simp at hlength

section

variable {dimension name : String} {values found : List String}

/-- Whatever is read from a sentence is legible. -/
theorem legible_of_read
    (h : read? (Advice.missingValues dimension values).text = some (.missingValues name found)) :
    Legible name found := by
  rw [read?_text_missingValues] at h
  obtain ⟨⟨name', behind⟩, hnamed, h⟩ := Option.bind_eq_some_iff.mp h
  obtain ⟨list, -, h⟩ := Option.bind_eq_some_iff.mp h
  obtain ⟨line, hline, h⟩ := Option.bind_eq_some_iff.mp h
  obtain ⟨rfl, rfl⟩ := missingValues.inj (Option.some.inj h)
  obtain ⟨hne, hquote⟩ := of_named?_eq_some hnamed
  refine ⟨fun hempty => hne ?_, ?_, fun v hv => isItem_of_mem hline hv⟩
  · rw [← String.toList_ofList (l := name'), hempty]
    rfl
  · rwa [String.toList_ofList]

/-- A sentence comes back just if it is legible. -/
theorem read?_eq_self_iff :
    read? (Advice.missingValues dimension values).text = some (.missingValues dimension values) ↔
      Legible dimension values := by
  refine ⟨legible_of_read, fun h => ?_⟩
  obtain ⟨hnewline, hlist⟩ := listItems_of_isItem h.items
  rw [read?_text_missingValues, missingValues?_eq_some_iff h.no_backquote]
  refine ⟨fun hnil => h.ne_empty (String.toList_inj.mp hnil), _, rfl, hnewline, ?_⟩
  rw [String.ofList_toList, hlist]

/-- A sentence is read as one on another name just if it is taken for one. -/
theorem exists_read_iff_takenFor (hname : name ≠ "") (hquote : '\x60' ∉ name.toList)
    (hne : dimension ≠ name) :
    (∃ found, read? (Advice.missingValues dimension values).text
        = some (.missingValues name found)) ↔ TakenFor name dimension values := by
  have hclosing : "` values:".toList = '\x60' :: " values:".toList := by decide
  rw [read?_text_missingValues]
  constructor
  · rintro ⟨found, h⟩
    by_cases hmem : '\x60' ∈ dimension.toList
    · obtain ⟨front, more, hsplit, hfront⟩ := List.eq_append_cons_of_mem hmem
      rw [hsplit, List.append_assoc, List.cons_append] at h
      obtain ⟨-, list, hlist, hnewline, hfinding⟩ := (missingValues?_eq_some_iff hfront).mp h
      obtain ⟨rfl, -⟩ := missingValues.inj hfinding
      obtain ⟨behind, rfl⟩ : " values:".toList <+: more :=
        prefix_of_not_mem (c := '\x60') (by decide) ⟨list, hlist.symm⟩
      rw [List.append_assoc] at hlist
      obtain rfl := List.append_cancel_left hlist
      refine ⟨behind, ?_, hnewline⟩
      rw [hsplit, String.toList_append, String.toList_ofList (l := front), hclosing,
        List.append_assoc]
      rfl
    · obtain ⟨-, list, -, -, hfinding⟩ := (missingValues?_eq_some_iff hmem).mp h
      obtain ⟨rfl, -⟩ := missingValues.inj hfinding
      exact absurd String.ofList_toList.symm hne
  · rintro ⟨more, hmore, hnewline⟩
    rw [String.toList_append, hclosing, List.append_assoc, List.cons_append] at hmore
    rw [hmore, List.append_assoc, List.cons_append, List.append_assoc]
    have hnil : name.toList ≠ [] := fun hnil => hname (String.toList_inj.mp hnil)
    have hread := (missingValues?_eq_some_iff hquote).mpr ⟨hnil, _, rfl, hnewline, rfl⟩
    rw [String.ofList_toList] at hread
    exact ⟨_, hread⟩

end

/-! ## Sentences on one dimension -/

/-- The values that are read from a sentence, if it is read as one on the given dimension. -/
def valuesFor? (dimension : String) (a : Advice) : Option (List String) :=
  match read? a.text with
  | some (.missingValues name values) => if name = dimension then some values else none
  | _ => none

theorem valuesFor?_eq_some_iff {dimension : String} {a : Advice} {values : List String} :
    valuesFor? dimension a = some values ↔
      read? a.text = some (.missingValues dimension values) := by
  rw [valuesFor?]
  split <;> simp_all

/-- The advice on variants has a sentence for each dimension that is lacking. -/
theorem adviceOf_variant (source : List Char) (spec : Spec) (policy : Policy) :
    adviceOf source spec policy .variant
      = (spec.variants.filter fun x => Lacking source policy x).map
          fun x => .missingValues x.1 (askedValues source policy x) := by
  rw [adviceOf, variantGaps, List.map_filterMap, ← List.filterMap_eq_map, List.filterMap_filter]
  refine List.filterMap_congr fun x _ => ?_
  obtain ⟨hlacking, hgap⟩ | ⟨hlacking, g, hgap, -, hadvice⟩ := variantGap?_cases source policy x
  · simp [hlacking, hgap]
  · simp [hlacking, hgap, hadvice]

namespace ExtractionInput

/-- The variant issues on a dimension. -/
def issuesOn (e : ExtractionInput) (dimension : String) : List Issue :=
  (e.issues.filter fun i => i.kind = .variant).filter fun i => i.subject? = some dimension

theorem map_target_ofAdvice (e : ExtractionInput) (dimension : String) {a : Advice}
    (hkind : a.kind = .variant) :
    ((e.ofAdvice a).filter fun i => i.subject? = some dimension).map (·.target)
      = ((valuesFor? dimension a).map fun values => some (.variant dimension values)).toList := by
  cases hread : read? a.text with
  | none =>
      rw [ofAdvice, valuesFor?, hread]
      rfl
  | some f =>
      have hf := (kind_of_read hread).trans hkind
      rw [ofAdvice_of_read hread]
      cases f with
      | missingValues name values =>
          have hsubject : (e.missingValuesIssue name values).subject? = some name := rfl
          rw [valuesFor?, hread, ofFinding, List.filter_singleton, hsubject]
          by_cases hname : name = dimension
          · obtain rfl := hname
            simp [missingValuesIssue]
          · simp [hname]
      | spacing => cases hf
      | themeColors => cases hf
      | literalColors => cases hf

/-- What the issues on a dimension ask for is what is read from the sentences on all of them. -/
theorem map_target_issuesOn (source : List Char) (spec : Spec) (policy : Policy)
    (shown : Option (List Char)) (dimension : String) :
    ((ofValidated source spec policy shown).issuesOn dimension).map (·.target)
      = ((spec.variants.filter fun x => Lacking source policy x).filterMap fun x =>
          valuesFor? dimension (.missingValues x.1 (askedValues source policy x))).map
            fun values => some (.variant dimension values) := by
  have hunnumbered : ∀ issues : List Issue,
      (issues.filter fun i => i.subject? = some dimension).map (·.target)
        = ((issues.map Issue.unnumbered).filter fun i => i.subject? = some dimension).map
            (·.target) := by
    intro issues
    rw [List.filter_map, List.map_map]
    rfl
  rw [issuesOn, hunnumbered, filter_kind_issues, ← hunnumbered, adviceOf_variant,
    List.flatMap_map, List.filter_flatMap, List.map_flatMap, List.map_filterMap,
    List.filterMap_eq_flatMap_toList]
  exact List.flatMap_congr fun x _ => map_target_ofAdvice _ dimension rfl

end ExtractionInput

/-! ## One issue for a dimension -/

theorem filterMap_eq_singleton_iff {α β : Type} {l : List α} {x : α} {b : β} {F : α → Option β}
    (hnodup : l.Nodup) (hx : x ∈ l) (hF : F x = some b) :
    l.filterMap F = [b] ↔ ∀ y ∈ l, y ≠ x → F y = none := by
  obtain ⟨front, behind, rfl⟩ := List.append_of_mem hx
  have hother : x ∉ front ++ behind := (List.nodup_cons.mp (List.nodup_middle.mp hnodup)).1
  have hmem : ∀ y, y ∈ front ++ behind ↔ y ∈ front ++ x :: behind ∧ y ≠ x := by
    intro y
    rw [List.mem_append, List.mem_append, List.mem_cons]
    constructor
    · exact fun hy => ⟨by tauto, fun hyx => hother (hyx ▸ List.mem_append.mpr hy)⟩
    · tauto
  calc (front ++ x :: behind).filterMap F = [b]
      ↔ (front ++ behind).filterMap F = [] := by
        rw [List.filterMap_append, List.filterMap_cons_some hF, List.filterMap_append]
        cases front.filterMap F <;> simp
    _ ↔ ∀ y ∈ front ++ x :: behind, y ≠ x → F y = none := by
        simp only [List.filterMap_eq_nil_iff, hmem, and_imp]

namespace ExtractionInput

/-- A dimension that is lacking has one variant issue, and that asks for the values that the
validator names, just if its names are legible and no other sentence is taken for one on it. -/
theorem missingValues_recovered_iff (source : List Char) {spec : Spec} (policy : Policy)
    (shown : Option (List Char)) (hdistinct : spec.Distinct) {x : String × List String}
    (hx : x ∈ spec.variants) (hlacking : Lacking source policy x) :
    ((ofValidated source spec policy shown).issuesOn x.1).map (·.target)
        = [some (.variant x.1 (askedValues source policy x))] ↔
      Legible x.1 (askedValues source policy x) ∧ ∀ y ∈ spec.variants, Lacking source policy y →
        ¬TakenFor x.1 y.1 (askedValues source policy y) := by
  have hlackings : ∀ y, y ∈ spec.variants.filter (fun x => Lacking source policy x) ↔
      y ∈ spec.variants ∧ Lacking source policy y := by simp
  have htarget : ∀ values, some (Target.variant x.1 values)
      = some (.variant x.1 (askedValues source policy x)) ↔
        values = askedValues source policy x := by simp
  rw [map_target_issuesOn, List.map_eq_singleton_iff]
  simp only [htarget, exists_eq_right]
  by_cases hlegible : Legible x.1 (askedValues source policy x)
  case neg =>
    -- what is read is legible, so no sentence at all asks for these values
    refine ⟨fun hfound => absurd ?_ hlegible, fun h => absurd h.1 hlegible⟩
    have hvalues := hfound ▸ List.mem_singleton_self (askedValues source policy x)
    obtain ⟨y, -, hread⟩ := List.mem_filterMap.mp hvalues
    exact legible_of_read (valuesFor?_eq_some_iff.mp hread)
  case pos =>
    have hself : valuesFor? x.1 (.missingValues x.1 (askedValues source policy x))
        = some (askedValues source policy x) :=
      valuesFor?_eq_some_iff.mpr (read?_eq_self_iff.mpr hlegible)
    have hnone : ∀ y : String × List String, y.1 ≠ x.1 →
        (valuesFor? x.1 (.missingValues y.1 (askedValues source policy y)) = none ↔
          ¬TakenFor x.1 y.1 (askedValues source policy y)) := by
      intro y hyx
      rw [← exists_read_iff_takenFor hlegible.ne_empty hlegible.no_backquote hyx,
        Option.eq_none_iff_forall_ne_some, not_exists]
      simp only [ne_eq, valuesFor?_eq_some_iff]
    rw [filterMap_eq_singleton_iff (F := fun y : String × List String =>
        valuesFor? x.1 (.missingValues y.1 (askedValues source policy y)))
      ((List.Nodup.of_map _ hdistinct).filter _) ((hlackings x).mpr ⟨hx, hlacking⟩) hself]
    constructor
    · refine fun h => ⟨hlegible, fun y hy hlacks htaken => ?_⟩
      have hyx := htaken.ne
      exact (hnone y hyx).mp (h y ((hlackings y).mpr ⟨hy, hlacks⟩) (ne_of_apply_ne _ hyx)) htaken
    · rintro ⟨-, h⟩ y hy hne
      obtain ⟨hy, hlacks⟩ := (hlackings y).mp hy
      have hyx : y.1 ≠ x.1 := fun hyx => hne (List.inj_on_of_nodup_map hdistinct hy hx hyx)
      exact (hnone y hyx).mpr (h y hy hlacks)

/-- A component without variants. -/
def plainSource : List Char := "cva(\"bg-primary\");\n".toList

/-- The targets of the issues on the first dimension of a spec. -/
def firstTargets (x : String × List String) (others : List (String × List String)) :
    List (Option Target) :=
  ((ofValidated plainSource { variants := x :: others } Policy.builtin none).issuesOn x.1).map
    (·.target)

/-- A dimension, one of whose values is generic. -/
def sizes : String × List String := ("size", ["sm", "extra large", "Hover"])

/-- A back quote in another name is not enough for it to be taken for this one. -/
theorem missingValues_recovered_plain :
    Spec.Distinct { variants := [sizes, ("size\x60s", ["lg"])] } ∧
      Lacking plainSource Policy.builtin sizes ∧
      firstTargets sizes [("size\x60s", ["lg"])]
        = [some (.variant "size" ["sm", "extra large"])] := by
  have hdistinct : Spec.Distinct { variants := [sizes, ("size\x60s", ["lg"])] } := by
    rw [Spec.Distinct]
    decide
  have hlacking : Lacking plainSource Policy.builtin sizes := by decide
  refine ⟨hdistinct, hlacking, ?_⟩
  exact (missingValues_recovered_iff plainSource Policy.builtin none hdistinct
    (List.mem_cons_self ..) hlacking).mpr (by decide)

/-- Dimensions with the other dimensions of their spec and the targets of the issues on them. -/
def unrecovered : List ((String × List String) × List (String × List String) ×
    List (Option Target)) :=
  [(("size", ["a,b"]), [], [some (.variant "size" ["a", "b"])]),
    (("size", [" sm"]), [], [some (.variant "size" ["sm"])]),
    (("size", ["sm\nlg"]), [], []),
    (("si\x60ze", ["sm"]), [], []),
    (("", ["sm"]), [], []),
    (("size", ["sm"]), [("size\x60 values: x", ["lg"])],
      [some (.variant "size" ["sm"]), some (.variant "size" ["x\x60 values: lg"])])]

/-- A comma cuts a value in two and white space at its ends is lost. A line end in a value loses the
issue, and so does a name that is empty or has a back quote. A name with the end of a quoted name
in it gives its issue to another dimension. -/
theorem not_missingValues_recovered : unrecovered.Forall fun x =>
    Spec.Distinct { variants := x.1 :: x.2.1 } ∧
      Lacking plainSource Policy.builtin x.1 ∧
      firstTargets x.1 x.2.1 = x.2.2 ∧
      firstTargets x.1 x.2.1
        ≠ [some (.variant x.1.1 (askedValues plainSource Policy.builtin x.1))] := by
  refine List.forall_iff_forall_mem.mpr ?_
  simp only [Spec.Distinct]
  decide

end ExtractionInput

end DesignTokens
