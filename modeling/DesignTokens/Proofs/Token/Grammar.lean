import DesignTokens.Proofs.Token.Place

/-!
# The grammar of tokens

A token of a property is its utility name, a dash and a value: a key of the
scale that is not empty, or a number in brackets with a unit or without one. The
bare name of the corner radius is a token too. Words are read by exactly that
grammar (`isToken_iff`), and no word is a token of two properties
(`eq_of_isToken`).
-/

namespace DesignTokens

open Text

/-! ## Tokens -/

namespace Property

/-- A token of the property: its utility name, a dash and a value, or the bare name if the property
is the corner radius. -/
def IsTokenText (p : Property) (word : List Char) : Prop :=
  (∃ key, ((∃ e ∈ p.scale, e.1 ≠ "" ∧ key = e.1.toList) ∨ IsBracketed key) ∧
    word = p.utility.toList ++ '-' :: key) ∨
  (p = .borderRadius ∧ word = "rounded".toList)

theorem isKey_iff {p : Property} {key : List Char} :
    p.isKey key = true ↔ (∃ e ∈ p.scale, e.1 ≠ "" ∧ key = e.1.toList) ∨ IsBracketed key := by
  rw [isKey, Bool.or_eq_true]
  refine or_congr ?_ (Iff.trans ?_ isBracketed_iff.symm)
  · simp only [List.any_eq_true, Bool.and_eq_true, decide_eq_true_eq, @eq_comm _ key]
  · constructor
    · intro h
      split at h
      case h_1 d u hread => exact ⟨d, u, hread⟩
      case h_2 => cases h
    · rintro ⟨d, u, h⟩
      rw [h]

/-- Words are read by the grammar of tokens. -/
theorem isToken_iff {p : Property} {word : List Char} :
    p.isToken word = true ↔ p.IsTokenText word := by
  rw [isToken, Bool.or_eq_true, IsTokenText, or_comm]
  refine or_congr ?_ ?_
  · constructor
    · intro h
      split at h
      case h_1 key hkey => exact ⟨key, isKey_iff.mp h, by simpa using after_eq_some_iff.mp hkey⟩
      case h_2 => cases h
    · rintro ⟨key, hkey, rfl⟩
      rw [after_eq_some_iff.mpr (List.append_cons ..)]
      exact isKey_iff.mpr hkey
  · simp only [Bool.and_eq_true, decide_eq_true_eq]
    exact and_congr_right fun h => by rw [h]; rfl

/-! ## The property of a token -/

theorem dash_not_mem_utility (p : Property) : '-' ∉ p.utility.toList := by
  cases p <;> decide

theorem takeWhile_utility (p : Property) :
    p.utility.toList.takeWhile (· ≠ '-') = p.utility.toList :=
  List.takeWhile_eq_self_iff.mpr fun _ hc =>
    decide_eq_true fun h => p.dash_not_mem_utility (h ▸ hc)

theorem takeWhile_utility_append (p : Property) (key : List Char) :
    (p.utility.toList ++ '-' :: key).takeWhile (· ≠ '-') = p.utility.toList := by
  rw [takeWhile_append_stop (by decide), takeWhile_utility]

/-- The utility name is what stands before the first dash of a token. -/
theorem takeWhile_of_isToken {p : Property} {word : List Char} (h : p.isToken word = true) :
    word.takeWhile (· ≠ '-') = p.utility.toList := by
  rcases isToken_iff.mp h with ⟨key, -, rfl⟩ | ⟨rfl, rfl⟩
  · exact p.takeWhile_utility_append key
  · exact borderRadius.takeWhile_utility

theorem utility_inj {p q : Property} (h : p.utility.toList = q.utility.toList) : p = q :=
  Option.some.inj (by rw [← ofUtility?_utility p, String.toList_inj.mp h, ofUtility?_utility])

/-- No word is a token of two properties. -/
theorem eq_of_isToken {p q : Property} {word : List Char} (hp : p.isToken word = true)
    (hq : q.isToken word = true) : p = q :=
  utility_inj ((takeWhile_of_isToken hp).symm.trans (takeWhile_of_isToken hq))

end Property

/-! ## The characters of tokens -/

theorem not_boundary_of_isTokenChar {c : Char} (h : isTokenChar c = true) :
    isLead c = false ∧ isTrail c = false := by
  have hc : c.isAlphanum = true ∨ c = '-' ∨ c = '.' ∨ c = '[' ∨ c = ']' := by
    simpa [isTokenChar, or_assoc] using h
  rcases hc with hword | rfl | rfl | rfl | rfl
  · have hnot : wordAt (some c) = true := by simp [wordAt, isWord, hword]
    refine ⟨Bool.eq_false_iff.mpr fun hlead => ?_, Bool.eq_false_iff.mpr fun htrail => ?_⟩
    · rw [wordAt_of_isLead (c := some c) (by simpa using hlead)] at hnot
      cases hnot
    · rw [wordAt_of_isTrail (c := some c) (by simpa using htrail)] at hnot
      cases hnot
  all_goals decide

end DesignTokens
