import DesignTokens.Proofs.Token.Occurrences

/-!
# The shape of spacing

Whether there is any spacing in a text is asked with a grammar of its own
(`IsSpacingText`). It knows more utility names than there are properties, a minus
sign, and every number, on the scale or not. So it takes in the tokens of the
spacing properties that the search finds, with one exception: a number in
brackets may be without a unit in a token, and may not here
(`isSpacingText_iff_of_isTokenText`). A text whose spacing is all of that kind is
taken for one without spacing (`spacing_without_unit_missed`).
-/

namespace DesignTokens

open Text

/-! ## The grammar -/

/-- `px`, a decimal, or a decimal in brackets with its unit. -/
def IsSpacingValueText (value : List Char) : Prop :=
  value = ['p', 'x'] ∨ IsDecimal value ∨
    ∃ number unit, IsDecimal number ∧ unit ≠ LengthUnit.none ∧
      value = '[' :: (number ++ (unit.text ++ [']']))

/-- Perhaps a minus sign, the name of a utility, a dash and a value. -/
def IsSpacingText (word : List Char) : Prop :=
  ∃ sign ∈ [[], ['-']], ∃ utility ∈ spacingUtilities, ∃ value, IsSpacingValueText value ∧
    word = sign ++ (utility.toList ++ '-' :: value)

theorem isSpacingValue_iff {value : List Char} :
    isSpacingValue value = true ↔ IsSpacingValueText value := by
  rw [isSpacingValue, Bool.or_eq_true, Bool.or_eq_true, or_assoc, decide_eq_true_eq]
  refine or_congr Iff.rfl (or_congr ?_ ?_)
  · constructor
    · intro h
      split at h
      case h_1 d hread => exact isDecimal_iff.mpr ⟨d, hread⟩
      case h_2 => cases h
    · intro h
      obtain ⟨d, hread⟩ := isDecimal_iff.mp h
      rw [hread]
  · constructor
    · intro h
      split at h
      case h_1 d hread =>
        obtain ⟨number, hnumber, rfl⟩ := exists_of_bracket?_eq_some hread
        exact ⟨number, .px, hnumber, by decide, rfl⟩
      case h_2 d hread =>
        obtain ⟨number, hnumber, rfl⟩ := exists_of_bracket?_eq_some hread
        exact ⟨number, .rem, hnumber, by decide, rfl⟩
      case h_3 => cases h
    · rintro ⟨number, unit, hnumber, hunit, rfl⟩
      obtain ⟨d, hread⟩ := bracket?_append hnumber unit []
      rw [hread]
      cases unit with
      | none => exact absurd rfl hunit
      | px => rfl
      | rem => rfl

/-- No name starts with the sign that may stand in front of it. -/
theorem after?_minus_utility : ∀ u ∈ spacingUtilities, ∀ rest,
    after? ['-'] (u.toList ++ rest) = none := by
  have hfirst : ∀ u ∈ spacingUtilities, u.toList.head?.any (· ≠ '-') = true := by decide
  intro u hu rest
  have hname := hfirst u hu
  cases hchars : u.toList with
  | nil =>
      rw [hchars] at hname
      cases hname
  | cons c cs =>
      rw [hchars] at hname
      have hc : '-' ≠ c := Ne.symm (of_decide_eq_true hname)
      rw [List.cons_append, after?, if_neg hc]

theorem isSpacingShape_iff {word : List Char} :
    isSpacingShape word = true ↔ IsSpacingText word := by
  rw [isSpacingShape, List.any_eq_true]
  constructor
  · rintro ⟨u, hu, h⟩
    split at h
    case h_1 value hread =>
      have hbare : (after? ['-'] word).getD word = u.toList ++ '-' :: value := by
        simpa using after_eq_some_iff.mp hread
      have hvalue := isSpacingValue_iff.mp h
      cases hsign : after? ['-'] word with
      | none => exact ⟨[], by decide, u, hu, value, hvalue, by rwa [hsign] at hbare⟩
      | some bare =>
          rw [hsign, Option.getD_some] at hbare
          subst hbare
          exact ⟨['-'], by decide, u, hu, value, hvalue, after_eq_some_iff.mp hsign⟩
    case h_2 => cases h
  · rintro ⟨sign, hsign, u, hu, value, hvalue, rfl⟩
    have hbare : (after? ['-'] (sign ++ (u.toList ++ '-' :: value))).getD
        (sign ++ (u.toList ++ '-' :: value)) = u.toList ++ '-' :: value := by
      rcases List.mem_pair.mp hsign with rfl | rfl
      · rw [List.nil_append, after?_minus_utility u hu, Option.getD_none]
      · rw [after_eq_some_iff.mpr rfl, Option.getD_some]
    refine ⟨u, hu, ?_⟩
    rw [hbare, after_eq_some_iff.mpr (List.append_cons ..)]
    exact isSpacingValue_iff.mpr hvalue

/-! ## Spacing in a text -/

theorem isTokenChar_of_isSpacingValueText {value : List Char} (h : IsSpacingValueText value) :
    ∀ c ∈ value, isTokenChar c = true := by
  rcases h with rfl | h | ⟨number, unit, hnumber, -, rfl⟩
  · decide
  · exact isTokenChar_of_isDecimal h
  · exact isTokenChar_of_bracketed hnumber unit

theorem isTokenChar_of_isSpacingText {word : List Char} (h : IsSpacingText word) :
    ∀ c ∈ word, isTokenChar c = true := by
  have hnames : ∀ u ∈ spacingUtilities, ∀ c ∈ u.toList, isTokenChar c = true := by decide
  obtain ⟨sign, hsign, u, hu, value, hvalue, rfl⟩ := h
  refine List.forall_mem_append.mpr ⟨?_, List.forall_mem_append.mpr ⟨hnames u hu,
    List.forall_mem_cons.mpr ⟨by decide, isTokenChar_of_isSpacingValueText hvalue⟩⟩⟩
  rcases List.mem_pair.mp hsign with rfl | rfl <;> decide

/-- There is spacing in a text just if a word of that shape stands at a place of its own. -/
theorem holdsSpacingToken_iff {text : List Char} :
    holdsSpacingToken text = true ↔ ∃ a word b, TokenAt a word b text ∧ IsSpacingText word := by
  rw [holdsSpacingToken, List.any_eq_true]
  constructor
  · rintro ⟨⟨p, rest⟩, hstart, h⟩
    obtain ⟨a, rfl, -, hlead⟩ := mem_tokenStarts_iff.mp hstart
    refine ⟨a, tokenWord rest, rest.dropWhile fun c => !isTrail c,
      ⟨?_, hlead, all_head?_dropWhile isTrail rest⟩, isSpacingShape_iff.mp h⟩
    rw [tokenWord, List.takeWhile_append_dropWhile]
  · rintro ⟨a, word, b, ⟨rfl, hlead, htrail⟩, hword⟩
    have hinside : ∀ c ∈ word, isTrail c = false := fun c hc =>
      (not_boundary_of_isTokenChar (isTokenChar_of_isSpacingText hword c hc)).2
    refine ⟨(a.length, word ++ b), mem_tokenStarts_iff.mpr ⟨a, rfl, rfl, hlead⟩, ?_⟩
    dsimp only
    rw [tokenWord_append hinside htrail]
    exact isSpacingShape_iff.mpr hword

/-! ## Tokens of spacing -/

/-- The token has a number in brackets, and no unit. -/
def Property.IsUnitless (p : Property) (token : List Char) : Prop :=
  ∃ number, IsDecimal number ∧ token = p.utility.toList ++ '-' :: '[' :: (number ++ [']'])

theorem exists_last_digit {number : List Char} (h : IsDecimal number) :
    ∃ d, number.getLast? = some d ∧ d.isDigit = true := by
  have hlast : ∀ {digits : List Char}, IsDigits digits →
      ∃ d, digits.getLast? = some d ∧ d.isDigit = true := fun {digits} hdigits =>
    ⟨_, List.getLast?_eq_some_getLast hdigits.1, hdigits.2 _ (List.getLast_mem hdigits.1)⟩
  rcases h with h | ⟨whole, fraction, -, hfraction, rfl⟩
  · exact hlast h
  · obtain ⟨d, hd, hdigit⟩ := hlast hfraction
    refine ⟨d, ?_, hdigit⟩
    rw [List.getLast?_append_of_ne_nil _ (List.cons_ne_nil _ _), List.getLast?_cons, hd]
    rfl

/-- No word of spacing ends in a digit and a closing bracket. -/
theorem not_isSpacingText_of_digit (front : List Char) {d : Char} (hd : front.getLast? = some d)
    (hdigit : d.isDigit = true) : ¬IsSpacingText (front ++ [']']) := by
  rintro ⟨sign, -, u, -, value, hvalue, h⟩
  rw [List.append_cons u.toList, ← List.append_assoc] at h
  generalize sign ++ (u.toList ++ ['-']) = before at h
  -- only the third kind of value ends in a bracket, and a unit is in front of it
  rcases hvalue with rfl | hvalue | ⟨number, unit, -, hunit, rfl⟩
  · simpa using congrArg List.getLast? h
  · obtain ⟨d', hd', hdigit'⟩ := exists_last_digit hvalue
    have hlast := congrArg List.getLast? h
    rw [List.getLast?_concat, List.getLast?_append, hd', Option.some_or] at hlast
    rw [← Option.some.inj hlast] at hdigit'
    cases hdigit'
  · have hclosed : front ++ [']'] = before ++ '[' :: (number ++ unit.text) ++ [']'] := by
      rw [h]
      simp
    have hletter : ∃ c, unit.text.getLast? = some c ∧ c.isDigit = false := by
      cases unit with
      | none => exact absurd rfl hunit
      | px => exact ⟨'x', rfl, rfl⟩
      | rem => exact ⟨'m', rfl, rfl⟩
    obtain ⟨c, hc, hnot⟩ := hletter
    rw [List.append_cancel_right hclosed, List.getLast?_append_of_ne_nil _ (List.cons_ne_nil _ _),
      List.getLast?_cons, List.getLast?_append, hc] at hd
    obtain rfl : c = d := Option.some.inj hd
    rw [hnot] at hdigit
    cases hdigit

section

variable {p : Property} (hp : p.isSpacing = true)

include hp

theorem utility_mem_spacingUtilities : p.utility ∈ spacingUtilities := by
  revert hp
  cases p <;> decide

theorem isSpacingValueText_of_mem_scale : ∀ e ∈ p.scale, IsSpacingValueText e.1.toList := by
  have hvalues : ∀ e ∈ Property.spacingScale, isSpacingValue e.1.toList = true := by
    decide
  have hscale : p.scale = Property.spacingScale := by
    revert hp
    cases p <;> decide
  rw [hscale]
  exact fun e he => isSpacingValue_iff.mp (hvalues e he)

/-- A token of a spacing property has the shape of spacing, unless its number has no unit. -/
theorem isSpacingText_iff_of_isTokenText {word : List Char} (h : p.IsTokenText word) :
    IsSpacingText word ↔ ¬p.IsUnitless word := by
  constructor
  · rintro hword ⟨number, hnumber, rfl⟩
    obtain ⟨d, hd, hdigit⟩ := exists_last_digit hnumber
    refine not_isSpacingText_of_digit (p.utility.toList ++ '-' :: '[' :: number) ?_ hdigit
      (by simpa using hword)
    rw [List.getLast?_append_of_ne_nil _ (List.cons_ne_nil _ _), List.getLast?_cons_cons,
      List.getLast?_cons, hd]
    rfl
  · intro hunit
    have hvalue : ∀ key, IsSpacingValueText key → word = p.utility.toList ++ '-' :: key →
        IsSpacingText word := fun key hkey hword =>
      ⟨[], by decide, p.utility, utility_mem_spacingUtilities hp, key, hkey, hword⟩
    rcases h with ⟨_, ⟨e, he, -, rfl⟩ | ⟨number, hnumber, unit, hmem, rfl⟩, hword⟩ | ⟨rfl, -⟩
    · exact hvalue _ (isSpacingValueText_of_mem_scale hp e he) hword
    · obtain ⟨unit, rfl⟩ := exists_text_eq hmem
      refine hvalue _ (.inr (.inr ⟨number, unit, hnumber, ?_, rfl⟩)) hword
      rintro rfl
      exact hunit ⟨number, hnumber, hword⟩
    · cases hp

end

/-- There is spacing in a text just if a word of the grammar of spacing stands at a place of its
own. The tokens of the spacing properties are such words, all but those with a number in brackets
that has no unit. So spacing is never missed in a text with another token of these properties. -/
theorem holdsSpacingToken_of_hits (text : List Char) :
    (holdsSpacingToken text = true ↔ ∃ a word b, TokenAt a word b text ∧ IsSpacingText word) ∧
    (∀ p : Property, p.isSpacing = true → ∀ h ∈ p.hits text,
      (IsSpacingText h.token ↔ ¬p.IsUnitless h.token)) ∧
    (∀ p : Property, p.isSpacing = true → ∀ h ∈ p.hits text,
      ¬p.IsUnitless h.token → holdsSpacingToken text = true) := by
  have hshape : ∀ p : Property, p.isSpacing = true → ∀ h ∈ p.hits text,
      (IsSpacingText h.token ↔ ¬p.IsUnitless h.token) := fun p hp h hmem =>
    isSpacingText_iff_of_isTokenText hp (mem_hits_iff.mp hmem).2.1
  refine ⟨holdsSpacingToken_iff, hshape, fun p hp h hmem hunit => ?_⟩
  obtain ⟨a, b, hplace, -⟩ := exists_of_mem_hits hmem
  exact holdsSpacingToken_iff.mpr ⟨a, h.token, b, hplace, (hshape p hp h hmem).mpr hunit⟩

theorem holdsSpacingToken_of_hits_rem :
    let text := "\"h-[40] md:gap-[1.5rem]\"".toList
    ∃ h ∈ Property.gap.hits text, h.pixels = some 24 ∧ ¬Property.gap.IsUnitless h.token ∧
      holdsSpacingToken text = true := by
  intro text
  have hhits : Property.gap.hits text = [⟨.gap, "gap-[1.5rem]".toList, 11, 23, some 24⟩] := by
    decide +kernel
  have hmem : (⟨.gap, "gap-[1.5rem]".toList, 11, 23, some 24⟩ : Hit) ∈ Property.gap.hits text :=
    hhits ▸ List.mem_singleton_self _
  have hunit : ¬Property.gap.IsUnitless "gap-[1.5rem]".toList :=
    (isSpacingText_iff_of_isTokenText rfl (mem_hits_iff.mp hmem).2.1).mp
      (isSpacingShape_iff.mp (by decide))
  exact ⟨_, hmem, rfl, hunit,
    (holdsSpacingToken_of_hits text).2.2 .gap rfl _ hmem hunit⟩

/-- A text in which the only spacing is a height without a unit is taken for one without spacing. -/
theorem spacing_without_unit_missed :
    Property.height.isSpacing = true ∧
      (∃ h ∈ Property.height.hits "\"h-[40]\"".toList, h.pixels = some 40) ∧
      holdsSpacingToken "\"h-[40]\"".toList = false := by
  have hhits : Property.height.hits "\"h-[40]\"".toList
      = [⟨.height, "h-[40]".toList, 1, 7, some 40⟩] := by decide
  exact ⟨rfl, ⟨_, hhits ▸ List.mem_singleton_self _, rfl⟩, by decide⟩

end DesignTokens
