import Mathlib.Data.List.Nodup
import DesignTokens.Proofs.MappingSet
import DesignTokens.Proofs.Text.Trim

/-!
# The mappings of chosen issues

Each chosen issue that has a target gives one mapping, in the list of its kind
and in the order in which the issues were first chosen; what it carries comes
from the issue and from its first choice. The mapping set of a selection is the
only one with these properties, and there is one unless an id is chosen that no
issue has, of which the first is the error (`ofSelection_iff`).

The choices made so far (`done`) say what the set holds so far (`Selected`): a
choice of an id that is among them already changes nothing, and a first choice
adds the mapping of its issue behind the others (`Selected.step`).
-/

namespace DesignTokens

open Text

/-! ## What a choice stands for -/

namespace Issue

/-- The value that a choice gives: the choice, or the suggestion where the choice is blank. -/
def chosenValue (i : Issue) (choice : String) : String :=
  if trimmed choice = "" then trimmed i.suggestion else trimmed choice

/-- The values that a choice gives a dimension: the issue's own for a blank choice and for the
suggestion, else the parts between the commas that are not blank. -/
def chosenValues (i : Issue) (own : List String) (choice : String) : List String :=
  if trimmed choice = "" ∨ trimmed choice = trimmed i.suggestion then own
  else ((((trim choice.toList).splitOn ',').map trim).filter (· ≠ [])).map String.ofList

/-- The mapping of a literal color that is chosen. -/
def chosenColor? (i : Issue) (choice : String) : Option ColorMapping :=
  match i.target with
  | some (.color literal) => some ⟨i.id, literal, i.chosenValue choice⟩
  | _ => none

/-- The mapping of a property that is chosen. -/
def chosenSpacing? (i : Issue) (choice : String) : Option SpacingMapping :=
  match i.target with
  | some (.utility property) => some ⟨i.id, property, i.chosenValue choice⟩
  | _ => none

/-- The mapping of a dimension that is chosen. -/
def chosenVariant? (i : Issue) (choice : String) : Option VariantMapping :=
  match i.target with
  | some (.variant dimension own) => some ⟨i.id, dimension, i.chosenValues own choice⟩
  | _ => none

theorem issueId_of_chosenColor? {i : Issue} {choice : String} {a : ColorMapping}
    (h : i.chosenColor? choice = some a) : a.issueId = i.id := by
  rw [chosenColor?] at h
  split at h
  · rw [← Option.some.inj h]
  · cases h

theorem issueId_of_chosenSpacing? {i : Issue} {choice : String} {a : SpacingMapping}
    (h : i.chosenSpacing? choice = some a) : a.issueId = i.id := by
  rw [chosenSpacing?] at h
  split at h
  · rw [← Option.some.inj h]
  · cases h

theorem issueId_of_chosenVariant? {i : Issue} {choice : String} {a : VariantMapping}
    (h : i.chosenVariant? choice = some a) : a.issueId = i.id := by
  rw [chosenVariant?] at h
  split at h
  · rw [← Option.some.inj h]
  · cases h

end Issue

namespace MappingSet

/-- Adding a choice adds the mapping of its issue behind those of its kind. -/
theorem addChoice_eq (m : MappingSet) (i : Issue) (choice : String) :
    m.addChoice i choice =
      { colors := m.colors ++ (i.chosenColor? choice).toList
        spacing := m.spacing ++ (i.chosenSpacing? choice).toList
        variants := m.variants ++ (i.chosenVariant? choice).toList } := by
  have hvalue : (if isBlankText choice then trimmed i.suggestion else trimmed choice)
      = i.chosenValue choice := by
    simp only [Issue.chosenValue, isBlankText_iff]
  have hvalues : ∀ own : List String,
      (if isBlankText choice || i.chosenValue choice = trimmed i.suggestion then own
        else listItems (i.chosenValue choice).toList) = i.chosenValues own choice := by
    intro own
    by_cases hblank : trimmed choice = ""
    · simp [Issue.chosenValues, isBlankText_iff.mpr hblank, hblank]
    · have hpicked : i.chosenValue choice = trimmed choice := if_neg hblank
      simp [Issue.chosenValues, isBlankText_iff, hblank, hpicked, listItems_eq, toList_trimmed]
  simp only [addChoice, hvalue, hvalues, Issue.chosenColor?, Issue.chosenSpacing?,
    Issue.chosenVariant?]
  cases i.target with
  | none => simp
  | some t => cases t <;> simp

/-! ## One mapping for each choice -/

/-- The place of an id among the choices: where it is chosen first. -/
def place (choices : List (String × String)) (id : String) : Nat := (choices.map (·.1)).idxOf id

/-- The list has the mapping of each issue that is chosen and has one of this kind, made with its
first choice, and no other. The mappings are in the order of first choice. -/
structure OnePerChoice {α : Type} (issues : List Issue) (choices : List (String × String))
    (idOf : α → String) (chosen? : Issue → String → Option α) (made : List α) : Prop where
  mem_iff : ∀ a, a ∈ made ↔ ∃ i ∈ issues, ∃ choice,
    choices.lookup i.id = some choice ∧ chosen? i choice = some a
  ordered : made.Pairwise fun a b => place choices (idOf a) < place choices (idOf b)

/-- The mapping set is what the choices of the issues ask for. -/
structure Selected (issues : List Issue) (choices : List (String × String)) (m : MappingSet) :
    Prop where
  colors : OnePerChoice issues choices ColorMapping.issueId Issue.chosenColor? m.colors
  spacing : OnePerChoice issues choices SpacingMapping.issueId Issue.chosenSpacing? m.spacing
  variants : OnePerChoice issues choices VariantMapping.issueId Issue.chosenVariant? m.variants

section

variable {α : Type} {issues : List Issue} {done : List (String × String)} {idOf : α → String}
  {chosen? : Issue → String → Option α} {made : List α}

theorem lookup_eq_none_iff_not_mem {id : String} :
    done.lookup id = none ↔ id ∉ done.map (·.1) := by
  rw [List.lookup_eq_none_iff, List.mem_map]
  constructor
  · rintro h ⟨c, hc, rfl⟩
    exact absurd (h c hc) (by simp)
  · intro h c hc
    rw [bne_iff_ne]
    rintro rfl
    exact h ⟨c, hc, rfl⟩

/-- The choice of an id counts unless there is an earlier one. -/
theorem lookup_concat_eq_some_iff {id choice j c : String} :
    (done ++ [(id, choice)]).lookup j = some c ↔
      done.lookup j = some c ∨ j ∉ done.map (·.1) ∧ j = id ∧ c = choice := by
  rw [List.lookup_append]
  cases hj : done.lookup j with
  | some w =>
      have hmem : ¬j ∉ done.map (·.1) := by
        rw [← lookup_eq_none_iff_not_mem, hj]
        exact Option.some_ne_none w
      simp only [Option.some_or, hmem, false_and, or_false]
  | none =>
      have hmem := lookup_eq_none_iff_not_mem.mp hj
      simp only [Option.none_or, List.lookup_singleton, beq_iff_eq,
        Option.ite_none_right_eq_some, Option.some.injEq, reduceCtorEq, false_or, hmem,
        not_false_eq_true, true_and]
      exact and_congr_right fun _ => eq_comm

namespace OnePerChoice

theorem nil : OnePerChoice issues [] idOf chosen? [] where
  mem_iff := by simp
  ordered := List.Pairwise.nil

variable (hidOf : ∀ {i choice a}, chosen? i choice = some a → idOf a = i.id)

include hidOf

theorem idOf_mem (h : OnePerChoice issues done idOf chosen? made) {a : α} (ha : a ∈ made) :
    idOf a ∈ done.map (·.1) := by
  obtain ⟨i, -, choice, hlookup, hmade⟩ := (h.mem_iff a).mp ha
  by_contra hnot
  rw [hidOf hmade, ← lookup_eq_none_iff_not_mem, hlookup] at hnot
  cases hnot

/-- Later choices leave the order as it is. -/
theorem ordered_append (h : OnePerChoice issues done idOf chosen? made)
    (more : List (String × String)) :
    made.Pairwise fun a b => place (done ++ more) (idOf a) < place (done ++ more) (idOf b) := by
  refine h.ordered.imp_of_mem fun {a b} ha hb hlt => ?_
  rw [place, place, List.map_append, List.idxOf_append_of_mem (h.idOf_mem hidOf ha),
    List.idxOf_append_of_mem (h.idOf_mem hidOf hb)]
  exact hlt

/-- Of several choices of one id the first counts. -/
theorem repeated (h : OnePerChoice issues done idOf chosen? made) {id : String}
    (hid : id ∈ done.map (·.1)) (choice : String) :
    OnePerChoice issues (done ++ [(id, choice)]) idOf chosen? made where
  mem_iff a := by
    have hlookup : ∀ j c, (done ++ [(id, choice)]).lookup j = some c ↔ done.lookup j = some c := by
      intro j c
      rw [lookup_concat_eq_some_iff, or_iff_left]
      rintro ⟨hnew, rfl, -⟩
      exact hnew hid
    simp only [hlookup]
    exact h.mem_iff a
  ordered := h.ordered_append hidOf _

/-- The first choice of an id adds the mapping of its issue at the end. -/
theorem added (h : OnePerChoice issues done idOf chosen? made)
    (hids : (issues.map (·.id)).Nodup) {i : Issue} (hi : i ∈ issues)
    (hnew : i.id ∉ done.map (·.1)) (choice : String) :
    OnePerChoice issues (done ++ [(i.id, choice)]) idOf chosen?
      (made ++ (chosen? i choice).toList) where
  mem_iff a := by
    rw [List.mem_append, h.mem_iff, Option.mem_toList]
    constructor
    · rintro (⟨j, hj, c, hlookup, hmade⟩ | hmade)
      · exact ⟨j, hj, c, lookup_concat_eq_some_iff.mpr (.inl hlookup), hmade⟩
      · exact ⟨i, hi, choice, lookup_concat_eq_some_iff.mpr (.inr ⟨hnew, rfl, rfl⟩), hmade⟩
    · rintro ⟨j, hj, c, hlookup, hmade⟩
      rcases lookup_concat_eq_some_iff.mp hlookup with hlookup | ⟨-, hid, rfl⟩
      · exact .inl ⟨j, hj, c, hlookup, hmade⟩
      · obtain rfl := List.inj_on_of_nodup_map hids hj hi hid
        exact .inr hmade
  ordered := by
    refine List.pairwise_append.mpr ⟨h.ordered_append hidOf _, ?_, ?_⟩
    · cases chosen? i choice <;> simp
    · intro a ha b hb
      have hold := h.idOf_mem hidOf ha
      rw [place, place, List.map_append, List.idxOf_append_of_mem hold,
        hidOf (Option.mem_toList.mp hb), List.idxOf_append_of_notMem hnew]
      exact Nat.lt_of_lt_of_le (List.idxOf_lt_length_of_mem hold) (Nat.le_add_right _ _)

omit hidOf in
/-- The order and the members settle the list. -/
theorem eq_of (h : OnePerChoice issues done idOf chosen? made) {made' : List α}
    (h' : OnePerChoice issues done idOf chosen? made') : made = made' := by
  have hnodup : ∀ {l : List α}, OnePerChoice issues done idOf chosen? l → l.Nodup := by
    intro l hl
    refine hl.ordered.imp ?_
    rintro a _ hlt rfl
    exact lt_irrefl _ hlt
  have hperm : made.Perm made' := (List.perm_ext_iff_of_nodup (hnodup h) (hnodup h')).mpr fun a =>
    (h.mem_iff a).trans (h'.mem_iff a).symm
  exact hperm.eq_of_pairwise (fun _ _ _ _ hlt hgt => absurd hgt hlt.asymm) h.ordered h'.ordered

end OnePerChoice

end

/-! ## The mapping set of a selection -/

variable {issues : List Issue} {done choices : List (String × String)} {m m' : MappingSet}

namespace Selected

theorem nil : Selected issues [] {} where
  colors := .nil
  spacing := .nil
  variants := .nil

/-- What is asked for leaves no freedom. -/
theorem eq_of (h : Selected issues choices m) (h' : Selected issues choices m') : m = m' := by
  have hcolors := h.colors.eq_of h'.colors
  have hspacing := h.spacing.eq_of h'.spacing
  have hvariants := h.variants.eq_of h'.variants
  cases m
  cases m'
  congr

/-- A choice of an id that was chosen before asks for nothing more. -/
theorem repeated (h : Selected issues done m) {id : String} (hid : id ∈ done.map (·.1))
    (choice : String) : Selected issues (done ++ [(id, choice)]) m where
  colors := h.colors.repeated Issue.issueId_of_chosenColor? hid choice
  spacing := h.spacing.repeated Issue.issueId_of_chosenSpacing? hid choice
  variants := h.variants.repeated Issue.issueId_of_chosenVariant? hid choice

/-- The first choice of an issue asks for its mapping. -/
theorem added (h : Selected issues done m) (hids : (issues.map (·.id)).Nodup) {i : Issue}
    (hi : i ∈ issues) (hnew : i.id ∉ done.map (·.1)) (choice : String) :
    Selected issues (done ++ [(i.id, choice)]) (m.addChoice i choice) := by
  rw [addChoice_eq]
  exact
    { colors := h.colors.added Issue.issueId_of_chosenColor? hids hi hnew choice
      spacing := h.spacing.added Issue.issueId_of_chosenSpacing? hids hi hnew choice
      variants := h.variants.added Issue.issueId_of_chosenVariant? hids hi hnew choice }

end Selected

/-- The choices of a run are added to those that were made before it. -/
theorem selected_of_addChoices (hids : (issues.map (·.id)).Nodup) :
    ∀ {rest done : List (String × String)} {seen : List String} {m m' : MappingSet},
      (∀ id, id ∈ seen ↔ id ∈ done.map (·.1)) → Selected issues done m →
      addChoices issues seen m rest = .ok m' → Selected issues (done ++ rest) m'
  | [], done, seen, m, m', _, h, hrun => by
      obtain rfl := Except.ok.inj hrun
      rwa [List.append_nil]
  | (id, choice) :: rest, done, seen, m, m', hseen, h, hrun => by
      rw [addChoices] at hrun
      split at hrun
      case h_1 => cases hrun
      case h_2 i hfind =>
        obtain rfl : i.id = id := by simpa using List.find?_some hfind
        have hi := List.mem_of_find?_eq_some hfind
        rw [List.append_cons]
        split at hrun
        case isTrue hold =>
          rw [List.contains_iff_mem, hseen] at hold
          refine selected_of_addChoices hids (fun id => ?_) (h.repeated hold choice) hrun
          rw [hseen, List.map_append, List.mem_append, List.map_singleton, List.mem_singleton,
            or_iff_left_of_imp]
          rintro rfl
          exact hold
        case isFalse hnew =>
          rw [List.contains_iff_mem, hseen] at hnew
          refine selected_of_addChoices hids (fun id => ?_) (h.added hids hi hnew choice) hrun
          rw [List.mem_cons, hseen, List.map_append, List.mem_append, List.map_singleton,
            List.mem_singleton, or_comm]

theorem addChoices_eq_error_iff {id : String} : ∀ {choices : List (String × String)}
    {seen : List String} {m : MappingSet}, addChoices issues seen m choices = .error id ↔
      (choices.map (·.1)).find? (· ∉ issues.map (·.id)) = some id
  | [], _, _ => by simp [addChoices]
  | (id', choice) :: rest, seen, m => by
      rw [addChoices, List.map_cons]
      split
      case h_1 hnone =>
        have hunknown : id' ∉ issues.map (·.id) := by
          simpa using hnone
        rw [List.find?_cons_of_pos (by simpa using hunknown), Except.error.injEq, Option.some.injEq]
      case h_2 i hfind =>
        have hknown : id' ∈ issues.map (·.id) :=
          List.mem_map.mpr ⟨i, List.mem_of_find?_eq_some hfind,
            by simpa using List.find?_some hfind⟩
        rw [List.find?_cons_of_neg (by simpa using hknown)]
        split <;> exact addChoices_eq_error_iff

/-- A selection fails just if an id is chosen that no issue has, with the first such id. Otherwise
it gives the mapping set that the choices ask for, and there is no other. -/
theorem ofSelection_iff (hids : (issues.map (·.id)).Nodup) (choices : List (String × String)) :
    (∀ id, ofSelection issues choices = .error id ↔
      (choices.map (·.1)).find? (· ∉ issues.map (·.id)) = some id) ∧
    ((∀ id ∈ choices.map (·.1), id ∈ issues.map (·.id)) →
      ∃ m, ofSelection issues choices = .ok m) ∧
    ∀ m, ofSelection issues choices = .ok m ↔
      (∀ id ∈ choices.map (·.1), id ∈ issues.map (·.id)) ∧ Selected issues choices m := by
  have herror : ∀ id, ofSelection issues choices = .error id ↔
      (choices.map (·.1)).find? (· ∉ issues.map (·.id)) = some id :=
    fun id => addChoices_eq_error_iff
  have hok : (∀ id ∈ choices.map (·.1), id ∈ issues.map (·.id)) →
      ∃ m, ofSelection issues choices = .ok m := by
    intro hknown
    refine exists_ofSelection fun c hc => ?_
    obtain ⟨i, hi, hid⟩ := List.mem_map.mp (hknown c.1 (List.mem_map_of_mem hc))
    exact ⟨i, hi, hid⟩
  refine ⟨herror, hok, fun m => ⟨fun h => ⟨?_, ?_⟩, fun ⟨hknown, hm⟩ => ?_⟩⟩
  · have hnone : (choices.map (·.1)).find? (· ∉ issues.map (·.id)) = none := by
      rw [← Option.not_isSome_iff_eq_none, Option.isSome_iff_exists]
      rintro ⟨id, hid⟩
      rw [(herror id).mpr hid] at h
      cases h
    simpa using hnone
  · exact selected_of_addChoices hids (fun id => by simp) .nil h
  · obtain ⟨m', hm'⟩ := hok hknown
    have hselected : Selected issues choices m' :=
      selected_of_addChoices hids (fun id => by simp) .nil hm'
    rw [hm', hm.eq_of hselected]

/-- Issues of every kind of target, and one without. -/
def offered : List Issue :=
  [⟨"size", .variant, "", "", "", "small, large", [], true,
      some (.variant "size" ["small", "large"])⟩,
    ⟨"white", .color, "", "", "", " bg-background", [], true, some (.color "#fff")⟩,
    ⟨"advice", .color, "", "", "", "bg-primary", [], true, none⟩,
    ⟨"height", .spacing, "", "", "", "h-10", [], true, some (.utility .height)⟩]

theorem ofSelection_iff_offered :
    (offered.map (·.id)).Nodup ∧
      ofSelection offered [("white", "x"), ("none", ""), ("other", "")] = .error "none" ∧
      Selected offered
        [("height", "h-12 "), ("advice", ""), ("size", "large, "), ("white", " "),
          ("height", "h-8"), ("size", "")]
        { colors := [⟨"white", "#fff", "bg-background"⟩]
          spacing := [⟨"height", .height, "h-12"⟩]
          variants := [⟨"size", "size", ["large"]⟩] } :=
  ⟨by decide, ((ofSelection_iff (by decide) _).1 "none").mpr (by decide),
    (((ofSelection_iff (by decide) _).2.2 _).mp (by rfl)).2⟩

end MappingSet

end DesignTokens
