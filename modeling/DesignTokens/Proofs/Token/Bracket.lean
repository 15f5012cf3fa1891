import Mathlib.Data.List.TakeWhile
import DesignTokens.Token.Basic

/-!
# Numbers in brackets

A value off the scale is written as a decimal in brackets, with a unit or without
one (`IsBracketed`). The reader takes exactly those texts (`isBracketed_iff`), also
where more text follows, and tells the decimal and the unit that are written
(`bracket?_text`, `text_of_bracket`).
-/

namespace DesignTokens

open Number

/-! ## Decimals -/

/-- One digit or more. -/
def IsDigits (cs : List Char) : Prop := cs ≠ [] ∧ ∀ c ∈ cs, c.isDigit = true

/-- Digits, and perhaps a point with digits behind it. -/
def IsDecimal (cs : List Char) : Prop :=
  IsDigits cs ∨
    ∃ whole fraction, IsDigits whole ∧ IsDigits fraction ∧ cs = whole ++ '.' :: fraction

theorem IsDigits.takeWhile_append {digits rest : List Char} (h : IsDigits digits)
    (hrest : rest.head?.all (fun c => !c.isDigit) = true) :
    (digits ++ rest).takeWhile Char.isDigit = digits ∧
      (digits ++ rest).dropWhile Char.isDigit = rest := by
  rw [List.takeWhile_append_of_pos h.2, List.dropWhile_append_of_pos h.2]
  cases rest with
  | nil => simp
  | cons c rest =>
      have hc : c.isDigit = false := by simpa using hrest
      simp [hc]

theorem isDigits_takeWhile {cs : List Char} (h : cs.takeWhile Char.isDigit ≠ []) :
    IsDigits (cs.takeWhile Char.isDigit) :=
  ⟨h, fun _ hc => List.mem_takeWhile_imp hc⟩

namespace Number

/-- A decimal as it is written. -/
def Decimal.text (d : Decimal) : List Char :=
  if d.fraction = [] then d.whole else d.whole ++ '.' :: d.fraction

/-- There are digits before the point, and there is nothing but digits behind it. -/
structure Decimal.WellFormed (d : Decimal) : Prop where
  whole : IsDigits d.whole
  fraction : ∀ c ∈ d.fraction, c.isDigit = true

end Number

theorem isDecimal_iff_text {number : List Char} :
    IsDecimal number ↔ ∃ d : Decimal, d.WellFormed ∧ number = d.text := by
  constructor
  · rintro (h | ⟨whole, fraction, hwhole, hfraction, rfl⟩)
    · exact ⟨⟨number, []⟩, ⟨h, by simp⟩, (if_pos rfl).symm⟩
    · exact ⟨⟨whole, fraction⟩, ⟨hwhole, hfraction.2⟩, (if_neg hfraction.1).symm⟩
  · rintro ⟨d, hd, rfl⟩
    rw [Decimal.text]
    split
    case isTrue => exact .inl hd.whole
    case isFalse hne => exact .inr ⟨_, _, hd.whole, ⟨hne, hd.fraction⟩, rfl⟩

/-- What is read as a decimal is its text. -/
theorem text_of_read {cs rest : List Char} {d : Decimal}
    (h : Decimal.read? cs = some (d, rest)) : d.WellFormed ∧ cs = d.text ++ rest := by
  rw [Decimal.read?] at h
  split at h
  case isTrue => cases h
  case isFalse hwhole =>
    have hdigits : IsDigits (cs.takeWhile Char.isDigit) :=
      isDigits_takeWhile (by simpa using hwhole)
    have hplain : (⟨cs.takeWhile Char.isDigit, []⟩ : Decimal).WellFormed ∧
        cs = (⟨cs.takeWhile Char.isDigit, []⟩ : Decimal).text ++ cs.dropWhile Char.isDigit :=
      ⟨⟨hdigits, by simp⟩, by rw [Decimal.text, if_pos rfl, List.takeWhile_append_dropWhile]⟩
    split at h
    case h_1 more hmore =>
      dsimp only at h
      split at h
      case isTrue =>
        cases h
        exact hplain
      case isFalse hfraction =>
        cases h
        refine ⟨⟨hdigits, fun _ hc => List.mem_takeWhile_imp hc⟩, ?_⟩
        rw [Decimal.text, if_neg (by simpa using hfraction), List.append_assoc, List.cons_append,
          List.takeWhile_append_dropWhile, ← hmore, List.takeWhile_append_dropWhile]
    case h_2 =>
      cases h
      exact hplain

theorem isDecimal_of_read {cs rest : List Char} {d : Decimal}
    (h : Decimal.read? cs = some (d, rest)) : ∃ number, IsDecimal number ∧ cs = number ++ rest :=
  have ⟨hd, hcs⟩ := text_of_read h
  ⟨_, isDecimal_iff_text.mpr ⟨d, hd, rfl⟩, hcs⟩

/-- No digit and no point stands at the start of the text. -/
def EndsDecimal (rest : List Char) : Prop :=
  rest.head?.all (fun c => !c.isDigit) = true ∧ rest.head? ≠ some '.'

theorem endsDecimal_cons {c : Char} (hdigit : c.isDigit = false) (hpoint : c ≠ '.')
    (cs : List Char) : EndsDecimal (c :: cs) :=
  ⟨by simp [hdigit], by simpa using hpoint⟩

/-- The text of a decimal is read to its end where no digit and no point follows. -/
theorem read_text {d : Decimal} {rest : List Char} (h : d.WellFormed) (hrest : EndsDecimal rest) :
    Decimal.read? (d.text ++ rest) = some (d, rest) := by
  obtain ⟨whole, fraction⟩ := d
  by_cases hfraction : fraction = []
  · subst hfraction
    have hsplit := h.whole.takeWhile_append hrest.1
    rw [Decimal.text, if_pos rfl, Decimal.read?, hsplit.1, hsplit.2,
      if_neg (by simpa using h.whole.1)]
    split
    case h_1 => exact absurd rfl hrest.2
    case h_2 => rfl
  · have hpoint : ('.' :: (fraction ++ rest)).head?.all (fun c => !c.isDigit) = true := rfl
    have hsplit := h.whole.takeWhile_append hpoint
    have hsplit' := IsDigits.takeWhile_append ⟨hfraction, h.fraction⟩ hrest.1
    rw [Decimal.text, if_neg hfraction, List.append_assoc, List.cons_append, Decimal.read?,
      hsplit.1, hsplit.2, if_neg (by simpa using h.whole.1)]
    simp only [hsplit'.1, hsplit'.2, List.isEmpty_iff, hfraction, if_false]

/-- Digits are read to their end where no digit and no point follows. -/
theorem read_digits {digits rest : List Char} (h : IsDigits digits) (hrest : EndsDecimal rest) :
    Decimal.read? (digits ++ rest) = some (⟨digits, []⟩, rest) :=
  read_text (d := ⟨digits, []⟩) ⟨h, by simp⟩ hrest

theorem read_decimal {number rest : List Char} (h : IsDecimal number) (hrest : EndsDecimal rest) :
    ∃ d, Decimal.read? (number ++ rest) = some (d, rest) := by
  obtain ⟨d, hd, rfl⟩ := isDecimal_iff_text.mp h
  exact ⟨d, read_text hd hrest⟩

theorem isDecimal_iff {value : List Char} :
    IsDecimal value ↔ ∃ d, Decimal.read? value = some (d, []) := by
  constructor
  · intro h
    have hend : EndsDecimal [] := ⟨rfl, by decide⟩
    simpa using read_decimal h hend
  · rintro ⟨d, h⟩
    obtain ⟨number, hnumber, heq⟩ := isDecimal_of_read h
    rwa [heq, List.append_nil]

/-! ## Brackets and units -/

/-- A decimal in brackets, with one of the two units or without. -/
def IsBracketed (key : List Char) : Prop :=
  ∃ number, IsDecimal number ∧ ∃ unit ∈ [[], ['p', 'x'], ['r', 'e', 'm']],
    key = '[' :: (number ++ (unit ++ [']']))

/-- A unit as it is written. -/
def LengthUnit.text : LengthUnit → List Char
  | .none => []
  | .px => ['p', 'x']
  | .rem => ['r', 'e', 'm']

theorem LengthUnit.text_mem (u : LengthUnit) : u.text ∈ [[], ['p', 'x'], ['r', 'e', 'm']] := by
  cases u <;> decide

theorem exists_text_eq {unit : List Char} (h : unit ∈ [[], ['p', 'x'], ['r', 'e', 'm']]) :
    ∃ u : LengthUnit, u.text = unit := by
  simp only [List.mem_cons, List.not_mem_nil, or_false] at h
  rcases h with rfl | rfl | rfl
  exacts [⟨.none, rfl⟩, ⟨.px, rfl⟩, ⟨.rem, rfl⟩]

/-- A decimal in brackets is read, and its unit. -/
theorem bracket?_text {d : Decimal} (h : d.WellFormed) (u : LengthUnit) (rest : List Char) :
    bracket? ('[' :: (d.text ++ (u.text ++ ']' :: rest))) = some (d, u, rest) := by
  cases u with
  | none =>
      have hread := read_text h (endsDecimal_cons (c := ']') rfl (by decide) rest)
      rw [LengthUnit.text, List.nil_append, bracket?, hread]
      rfl
  | px =>
      have hread := read_text h (endsDecimal_cons (c := 'p') rfl (by decide) ('x' :: ']' :: rest))
      rw [LengthUnit.text, List.cons_append, List.cons_append, List.nil_append, bracket?, hread]
      rfl
  | rem =>
      have hread := read_text h
        (endsDecimal_cons (c := 'r') rfl (by decide) ('e' :: 'm' :: ']' :: rest))
      rw [LengthUnit.text, List.cons_append, List.cons_append, List.cons_append, List.nil_append,
        bracket?, hread]
      rfl

/-- What is read in brackets is the text of the decimal and of the unit. -/
theorem text_of_bracket {cs rest : List Char} {d : Decimal} {u : LengthUnit}
    (h : bracket? cs = some (d, u, rest)) :
    d.WellFormed ∧ cs = '[' :: (d.text ++ (u.text ++ ']' :: rest)) := by
  unfold bracket? at h
  split at h
  case h_2 => cases h
  case h_1 cs =>
    have hclosed : ∀ u : LengthUnit, Decimal.read? cs = some (d, u.text ++ ']' :: rest) →
        d.WellFormed ∧ '[' :: cs = '[' :: (d.text ++ (u.text ++ ']' :: rest)) := by
      intro u hread
      obtain ⟨hd, rfl⟩ := text_of_read hread
      exact ⟨hd, rfl⟩
    split at h
    case h_1 hread =>
      cases h
      exact hclosed .px hread
    case h_2 hread =>
      cases h
      exact hclosed .rem hread
    case h_3 hread =>
      cases h
      exact hclosed .none hread
    case h_4 => cases h

theorem bracket?_append {number : List Char} (h : IsDecimal number) (u : LengthUnit)
    (rest : List Char) :
    ∃ d, bracket? ('[' :: (number ++ (u.text ++ ']' :: rest))) = some (d, u, rest) := by
  obtain ⟨d, hd, rfl⟩ := isDecimal_iff_text.mp h
  exact ⟨d, bracket?_text hd u rest⟩

theorem exists_of_bracket?_eq_some {cs rest : List Char} {d : Decimal} {u : LengthUnit}
    (h : bracket? cs = some (d, u, rest)) :
    ∃ number, IsDecimal number ∧ cs = '[' :: (number ++ (u.text ++ ']' :: rest)) :=
  have ⟨hd, hcs⟩ := text_of_bracket h
  ⟨_, isDecimal_iff_text.mpr ⟨d, hd, rfl⟩, hcs⟩

theorem exists_bracket_append {key : List Char} (h : IsBracketed key) (rest : List Char) :
    ∃ d u, bracket? (key ++ rest) = some (d, u, rest) := by
  obtain ⟨number, hnumber, unit, hunit, rfl⟩ := h
  obtain ⟨u, rfl⟩ := exists_text_eq hunit
  obtain ⟨d, hd⟩ := bracket?_append hnumber u rest
  exact ⟨d, u, by simpa using hd⟩

theorem isBracketed_of_bracket {cs rest : List Char} {d : Decimal} {u : LengthUnit}
    (h : bracket? cs = some (d, u, rest)) : ∃ key, IsBracketed key ∧ cs = key ++ rest := by
  obtain ⟨number, hnumber, rfl⟩ := exists_of_bracket?_eq_some h
  exact ⟨_, ⟨number, hnumber, u.text, u.text_mem, rfl⟩, by simp⟩

theorem isBracketed_iff {key : List Char} :
    IsBracketed key ↔ ∃ d u, bracket? key = some (d, u, []) := by
  constructor
  · intro h
    simpa using exists_bracket_append h []
  · rintro ⟨d, u, h⟩
    obtain ⟨key', hkey, heq⟩ := isBracketed_of_bracket h
    rwa [heq, List.append_nil]

end DesignTokens
