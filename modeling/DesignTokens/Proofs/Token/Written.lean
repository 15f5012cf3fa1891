import DesignTokens.Proofs.Json.RoundTrip
import DesignTokens.Proofs.Number.Exact
import DesignTokens.Proofs.Rewrite.Color
import DesignTokens.Proofs.Text.Trim
import DesignTokens.Proofs.Token.Grammar

/-!
# Tokens that are written

What is written for a number of pixels is a token of its property in the sense
of the grammar (`isToken_token`), and it is read back as that number
(`pixels?_token`), whether the scale has the number or not.
-/

namespace DesignTokens

open Text Number Rewrite

theorem isWhiteSpace_of_isTokenChar {c : Char} (h : isTokenChar c = true) :
    isWhiteSpace c = false := by
  simp only [isTokenChar, Bool.or_eq_true, decide_eq_true_eq] at h
  rcases h with (((h | rfl) | rfl) | rfl) | rfl
  · exact isWhiteSpace_of_isWord (by rw [isWord, h, Bool.true_or])
  all_goals decide

theorem stripModifiers_of_not_mem {token : List Char} (h : ':' ∉ token) :
    stripModifiers token = token := by
  have hfront : (token.takeWhile (· ≠ '[')).reverse.takeWhile (· ≠ ':')
      = (token.takeWhile (· ≠ '[')).reverse := by
    refine List.takeWhile_eq_self_iff.mpr fun c hc => decide_eq_true fun hcolon => h ?_
    exact hcolon ▸ List.takeWhile_subset _ (List.mem_reverse.mp hc)
  rw [stripModifiers, afterLastColon, hfront, List.reverse_reverse,
    List.takeWhile_append_dropWhile]

/-- Where there is nothing to trim and no modifier, a token is read as it stands. -/
theorem pixels?_of_isTokenChar (p : Property) {token : List Char}
    (h : ∀ c ∈ token, isTokenChar c = true) : p.pixels? token = p.barePixels? token := by
  have hcolon : ':' ∉ token := fun hmem => absurd (h _ hmem) (by decide)
  rw [Property.pixels?, trim_of_forall_not fun c hc => isWhiteSpace_of_isTokenChar (h c hc),
    stripModifiers_of_not_mem hcolon]

namespace Property

/-! ## Keys -/

theorem key?_utility (p : Property) : p.key? p.utility.toList = some [] := by
  rw [key?, if_pos rfl]

theorem key?_append (p : Property) (key : List Char) :
    p.key? (p.utility.toList ++ '-' :: key) = some key := by
  rw [key?, if_neg, after_eq_some_iff.mpr (List.append_cons ..)]
  intro h
  simpa using congrArg List.length h

theorem barePixels?_append (p : Property) (key : List Char) :
    p.barePixels? (p.utility.toList ++ '-' :: key)
      = if key.head? = some '[' then bracketPixels? key else p.keyPixels? key := by
  rw [barePixels?, key?_append]
  rfl

/-- The scales, each once. -/
def scales : List Scale :=
  [spacingScale, radiusScale, fontSizeScale, fontWeightScale, lineHeightScale]

theorem scale_mem_scales (p : Property) : p.scale ∈ scales := by
  cases p <;> simp [scales, scale]

theorem nodup_keys (p : Property) : (p.scale.map (·.1)).Nodup :=
  (by decide : ∀ s ∈ scales, (s.map (·.1)).Nodup) _ p.scale_mem_scales

theorem nodup_numbers (p : Property) : (p.scale.map (·.2)).Nodup :=
  (by decide : ∀ s ∈ scales, (s.map (·.2)).Nodup) _ p.scale_mem_scales

theorem bracket_not_mem_key (p : Property) : ∀ e ∈ p.scale, '[' ∉ e.1.toList :=
  (by decide : ∀ s ∈ scales, ∀ e ∈ s, '[' ∉ e.1.toList) _ p.scale_mem_scales

/-- What only one entry of a scale has finds that entry. -/
theorem find?_entry {s : Scale} {q : String × Nat → Bool} {e : String × Nat} (he : e ∈ s)
    (hq : q e = true) (honly : ∀ x ∈ s, q x = true → x = e) : s.find? q = some e := by
  obtain ⟨x, hx⟩ := Option.isSome_iff_exists.mp (List.find?_isSome.mpr ⟨e, he, hq⟩)
  rw [hx, honly x (List.mem_of_find?_eq_some hx) (List.find?_some hx)]

/-- Each key of a scale stands for one number only. -/
theorem keyPixels?_of_mem (p : Property) (e : String × Nat) (he : e ∈ p.scale) :
    p.keyPixels? e.1.toList = some e.2 := by
  rw [keyPixels?, find?_entry he (decide_eq_true rfl), Option.map_some]
  intro x hx hkey
  exact List.inj_on_of_nodup_map p.nodup_keys hx he (String.toList_inj.mp (of_decide_eq_true hkey))

theorem head?_key_ne (p : Property) (e : String × Nat) (he : e ∈ p.scale) :
    e.1.toList.head? ≠ some '[' :=
  fun h => p.bracket_not_mem_key e he (List.mem_of_mem_head? h)

/-- Only the corner radius has a bare name as a token. -/
theorem eq_of_empty_key (p : Property) : ∀ e ∈ p.scale, e.1 = "" → p = .borderRadius := by
  cases p <;> decide

/-! ## What is written -/

theorem toList_bracketToken (p : Property) (n : Nat) :
    (p.bracketToken n).toList
      = p.utility.toList ++ '-' :: '[' :: ((toString n).toList ++ (p.unit.toList ++ [']'])) := by
  have hopen : "-[".toList = ['-', '['] := by decide
  have hclose : "]".toList = [']'] := by decide
  simp [bracketToken, String.toList_append, hopen, hclose]

theorem toList_keyToken (p : Property) {key : String} (h : key ≠ "") :
    (p.keyToken key).toList = p.utility.toList ++ '-' :: key.toList := by
  have hdash : "-".toList = ['-'] := by decide
  rw [keyToken, if_neg h]
  simp [String.toList_append, hdash]

theorem token_cases (p : Property) (n : Nat) :
    (∃ e ∈ p.scale, e.2 = n ∧ p.token n = p.keyToken e.1) ∨ p.token n = p.bracketToken n := by
  rw [token, scaleToken?]
  cases h : p.scale.find? fun e => e.2 = n with
  | some e =>
      exact .inl ⟨e, List.mem_of_find?_eq_some h, by simpa using List.find?_some h, rfl⟩
  | none => exact .inr rfl

theorem isDigits_toString (n : Nat) : IsDigits (toString n).toList := by
  refine ⟨?_, fun c hc => isDigit_of_mem_toString hc⟩
  rw [Nat.toString_eq_repr, Nat.repr_eq_ofList_toDigits, String.toList_ofList]
  exact Nat.toDigits_ne_nil

theorem unit_cases (p : Property) : p.unit.toList = [] ∨ p.unit.toList = ['p', 'x'] := by
  cases p <;> decide

theorem isBracketed_written (p : Property) (n : Nat) :
    IsBracketed ('[' :: ((toString n).toList ++ (p.unit.toList ++ [']']))) := by
  refine ⟨_, .inl (isDigits_toString n), _, ?_, rfl⟩
  rcases p.unit_cases with h | h <;> simp [h]

/-- A bracketed number of pixels is a token, whether the scale has the number or not. -/
theorem isToken_bracketToken (p : Property) (n : Nat) :
    p.isToken (p.bracketToken n).toList = true :=
  isToken_iff.mpr (.inl ⟨_, .inr (p.isBracketed_written n), p.toList_bracketToken n⟩)

/-- A number of pixels is written as a token of its property. -/
theorem isToken_token (p : Property) (n : Nat) : p.isToken (p.token n).toList = true := by
  rw [isToken_iff]
  rcases p.token_cases n with ⟨e, he, -, h⟩ | h
  · by_cases hkey : e.1 = ""
    · rw [h, hkey, p.eq_of_empty_key e he hkey]
      exact .inr ⟨rfl, rfl⟩
    · exact .inl ⟨e.1.toList, .inl ⟨e, he, hkey, rfl⟩, by rw [h, toList_keyToken p hkey]⟩
  · rw [h]
    exact isToken_iff.mp (p.isToken_bracketToken n)

end Property

/-! ## Reading back -/

theorem wholePixels?_digits {n : Nat} (h : n < Nat.pow 2 53) {u : LengthUnit} (hu : u ≠ .rem) :
    wholePixels? ⟨(toString n).toList, []⟩ u = some n := by
  have hvalue : (⟨(toString n).toList, []⟩ : Decimal).toBinary64? = Binary64.ofNat? n := by
    rw [Decimal.toBinary64?, List.append_nil, Nat.toString_eq_repr, Nat.repr_eq_ofList_toDigits,
      String.toList_ofList, Json.digitsValue_toDigits]
    rfl
  obtain ⟨x, hx, hn⟩ := Option.bind_eq_some_iff.mp (Binary64.toNat?_ofNat h)
  rw [wholePixels?, hvalue, hx]
  cases u with
  | rem => exact absurd rfl hu
  | none => exact hn
  | px => exact hn

theorem firstBracket?_written (p : Property) (n : Nat) :
    ∃ u ≠ LengthUnit.rem,
      firstBracket? ('[' :: ((toString n).toList ++ (p.unit.toList ++ [']'])))
        = some (⟨(toString n).toList, []⟩, u) := by
  rcases p.unit_cases with hunit | hunit
  · have hread := read_digits (Property.isDigits_toString n)
      (endsDecimal_cons (c := ']') rfl (by decide) [])
    exact ⟨.none, by decide, by rw [hunit, List.nil_append, firstBracket?, bracket?, hread]; rfl⟩
  · have hread := read_digits (Property.isDigits_toString n)
      (endsDecimal_cons (c := 'p') rfl (by decide) ['x', ']'])
    exact ⟨.px, by decide, by
      rw [hunit, List.cons_append, List.cons_append, List.nil_append, firstBracket?, bracket?,
        hread]; rfl⟩

theorem bracketPixels?_written (p : Property) {n : Nat} (h : n ≤ maxPixels) :
    bracketPixels? ('[' :: ((toString n).toList ++ (p.unit.toList ++ [']']))) = some n := by
  obtain ⟨u, hu, hbracket⟩ := firstBracket?_written p n
  have hn : n < Nat.pow 2 53 := Nat.lt_of_le_of_lt h (by decide)
  rw [bracketPixels?, hbracket]
  simp only [Option.bind_eq_bind, Option.bind_some, wholePixels?_digits hn hu, h, if_true]

namespace Property

/-- The number in a bracketed token is read back. -/
theorem pixels?_bracketToken (p : Property) {n : Nat} (h : n ≤ maxPixels) :
    p.pixels? (p.bracketToken n).toList = some n := by
  rw [pixels?_of_isTokenChar p (isTokenChar_of_isToken (p.isToken_bracketToken n)).2,
    toList_bracketToken, barePixels?_append, List.head?_cons, if_pos rfl, bracketPixels?_written p h]

/-- A written token is read back as the number of pixels it was written for. -/
theorem pixels?_token (p : Property) {n : Nat} (h : n ≤ maxPixels) :
    p.pixels? (p.token n).toList = some n := by
  rcases p.token_cases n with ⟨e, he, rfl, htoken⟩ | htoken
  · have hpixels := p.keyPixels?_of_mem e he
    rw [pixels?_of_isTokenChar p (p.isTokenChar_token e.2)]
    by_cases hkey : e.1 = ""
    · have hutility : (p.keyToken e.1).toList = p.utility.toList := by
        rw [keyToken, if_pos hkey]
      rw [hkey] at hpixels
      rw [htoken, hutility, barePixels?, key?_utility]
      exact hpixels
    · rw [htoken, toList_keyToken p hkey, barePixels?_append, if_neg (p.head?_key_ne e he), hpixels]
  · rw [htoken, p.pixels?_bracketToken h]

end Property

theorem trim_token (p : Property) (n : Nat) : trim (p.token n).toList = (p.token n).toList :=
  trim_of_forall_not fun c hc => isWhiteSpace_of_isTokenChar (p.isTokenChar_token n c hc)

theorem trimmed_token (p : Property) (n : Nat) : trimmed (p.token n) = p.token n := by
  rw [trimmed, trim_token, String.ofList_toList]

theorem token_ne_nil (p : Property) (n : Nat) : (p.token n).toList ≠ [] :=
  (Property.isTokenChar_of_isToken (p.isToken_token n)).1

end DesignTokens
