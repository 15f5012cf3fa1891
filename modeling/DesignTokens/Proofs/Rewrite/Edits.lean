import DesignTokens.Rewrite.Apply

/-!
# Rows of edits

What a row of edits makes of a text is what its edits make of it one after the
other. So what every edit keeps, the row keeps (`runEdits_induct`). The record
that an edit leaves carries its pass and the id that it works for.
-/

namespace DesignTokens.Rewrite

/-- The text behind an edit, which is the text before it where there is nothing to do. -/
def Edit.after (edit : Edit) (text : List Char) : List Char :=
  ((edit text).map (·.1)).getD text

theorem runEdits_cons (edit : Edit) (edits : List Edit) (text : List Char) :
    (runEdits (edit :: edits) text).1 = (runEdits edits (edit.after text)).1 := by
  rw [runEdits, Edit.after]
  cases edit text <;> rfl

theorem runEdits_append (later : List Edit) : ∀ (edits : List Edit) (text : List Char),
    (runEdits (edits ++ later) text).1 = (runEdits later (runEdits edits text).1).1
  | [], _ => rfl
  | edit :: edits, text => by
      rw [List.cons_append, runEdits_cons, runEdits_cons, runEdits_append]

theorem runEdits_induct {P : List Char → Prop} :
    ∀ {edits : List Edit} {text : List Char}, P text →
      (∀ e ∈ edits, ∀ t, P t → P (e.after t)) → P (runEdits edits text).1
  | [], _, h, _ => h
  | e :: edits, text, h, hstep => by
      rw [runEdits_cons]
      exact runEdits_induct (hstep e (List.mem_cons_self ..) text h)
        fun e' he' => hstep e' (List.mem_cons_of_mem e he')

/-- A row of edits that each leave the text as it is leaves it as it is. -/
theorem runEdits_of_forall_after {edits : List Edit} {text : List Char}
    (h : ∀ e ∈ edits, e.after text = text) : (runEdits edits text).1 = text :=
  runEdits_induct (P := (· = text)) rfl fun e he _ ht => ht ▸ h e he

/-! ## What an edit leaves -/

section

variable {text changed : List Char} {r : Record}

theorem left_colorEdit {c : ColorMapping} (h : colorEdit c text = some (changed, r)) :
    r.pass = .colors ∧ r.issueId = some c.issueId := by
  rw [colorEdit] at h
  dsimp only at h
  split at h
  case isTrue => cases h
  case isFalse =>
    obtain ⟨first, -, h⟩ := Option.bind_eq_some_iff.mp h
    cases h
    exact ⟨rfl, rfl⟩

theorem left_spacingEdit {s : SpacingMapping} (h : spacingEdit s text = some (changed, r)) :
    r.pass = .spacing ∧ r.issueId = some s.issueId := by
  rw [spacingEdit] at h
  dsimp only at h
  split at h
  case isTrue => cases h
  case isFalse =>
    obtain ⟨found, -, h⟩ := Option.bind_eq_some_iff.mp h
    split at h
    case isTrue => cases h
    case isFalse =>
      cases h
      exact ⟨rfl, rfl⟩

theorem left_variantEdit {call : List Char} {v : VariantMapping}
    (h : variantEdit call v text = some (changed, r)) :
    r.pass = .variants ∧ r.issueId = some v.issueId := by
  obtain ⟨i, -, h⟩ := Option.bind_eq_some_iff.mp h
  cases h
  exact ⟨rfl, rfl⟩

theorem left_reservedEdit {call : List Char} {reserved renamed : String}
    (h : reservedEdit call reserved renamed text = some (changed, r)) :
    r.pass = .reservedNames ∧ r.issueId = none := by
  rw [reservedEdit] at h
  split at h
  case isTrue => cases h
  case isFalse =>
    dsimp only at h
    split at h
    case h_1 => cases h
    case h_2 =>
      cases h
      exact ⟨rfl, rfl⟩

/-- What an edit of a pass leaves is marked with the pass. -/
theorem pass_of_mem_edits {m : MappingSet} {policy : Policy} {p : Pass} {e : Edit}
    (he : e ∈ p.edits m policy) (h : e text = some (changed, r)) : r.pass = p := by
  cases p with
  | colors =>
      obtain ⟨c, -, rfl⟩ := List.mem_map.mp he
      exact (left_colorEdit h).1
  | spacing =>
      obtain ⟨s, -, rfl⟩ := List.mem_map.mp he
      exact (left_spacingEdit h).1
  | variants =>
      obtain ⟨v, -, rfl⟩ := List.mem_map.mp he
      exact (left_variantEdit h).1
  | reservedNames =>
      obtain ⟨x, -, rfl⟩ := List.mem_map.mp he
      exact (left_reservedEdit h).1

end

end DesignTokens.Rewrite
