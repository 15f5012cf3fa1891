import DesignTokens.MappingSet

/-!
# Mapping sets of choices

Choices of issues that are there make a mapping set: `ofSelection` can only
fail at an id that no issue has.
-/

namespace DesignTokens.MappingSet

theorem exists_addChoices {issues : List Issue} :
    ∀ {choices : List (String × String)} (seen : List String) (m : MappingSet),
      (∀ choice ∈ choices, ∃ i ∈ issues, i.id = choice.1) →
      ∃ made, addChoices issues seen m choices = .ok made
  | [], _, m, _ => ⟨m, rfl⟩
  | (id, choice) :: rest, seen, m, h => by
      obtain ⟨i, hi, hid⟩ := h (id, choice) (List.mem_cons_self ..)
      have hrest : ∀ other ∈ rest, ∃ i ∈ issues, i.id = other.1 :=
        fun other ho => h other (List.mem_cons_of_mem _ ho)
      obtain ⟨found, hfound⟩ : ∃ found, issues.find? (fun i => i.id = id) = some found := by
        rw [← Option.isSome_iff_exists, List.find?_isSome]
        exact ⟨i, hi, by simpa using hid⟩
      simp only [addChoices, hfound]
      split
      · exact exists_addChoices seen m hrest
      · exact exists_addChoices (id :: seen) (m.addChoice found choice) hrest

theorem exists_ofSelection {issues : List Issue} {choices : List (String × String)}
    (h : ∀ choice ∈ choices, ∃ i ∈ issues, i.id = choice.1) :
    ∃ m, ofSelection issues choices = .ok m :=
  exists_addChoices [] {} h

end DesignTokens.MappingSet
