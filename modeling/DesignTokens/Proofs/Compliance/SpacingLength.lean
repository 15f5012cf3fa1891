import DesignTokens.Compliance.SpacingLine
import DesignTokens.Proofs.Number.Overflow
import DesignTokens.Proofs.Text.Trim
import DesignTokens.Proofs.Token.Denotation

/-!
# The length that a spacing line gives

A line of a label, a whole number and a unit is read as that number of pixels,
but for a number above the greatest number of pixels, which is read as the
greatest one instead of being refused (`faithful_lengthLine_iff`). Only a number
that is too large for binary64 is refused. The number goes through binary64 all
the same: up to the greatest number of pixels nothing is rounded, and above it
what is rounded stays above.

Whether a label names a property does not depend on the blanks around it
(`isSome_ofLabel?_stripBlanks`), while which one it names does: in ` x padding`
the blank in front makes it the horizontal padding.
-/

namespace DesignTokens

open Text Number

/-! ## Labels -/

/-- A label is cut into the blanks around it and what is left without them. -/
theorem exists_stripBlanks (cs : List Char) : ∃ a b, cs = a ++ (stripBlanks cs ++ b) ∧
    (∀ c ∈ a, isBlank c = true) ∧ ∀ c ∈ b, isBlank c = true := by
  refine ⟨cs.takeWhile isBlank, ((skipBlanks cs).reverse.takeWhile isBlank).reverse, ?_,
    fun _ hc => List.mem_takeWhile_imp hc,
    fun _ hc => List.mem_takeWhile_imp (List.mem_reverse.mp hc)⟩
  rw [stripBlanks, dropEndWhile_append, skipBlanks, List.takeWhile_append_dropWhile]

section

variable {p : Char → Bool} {w a cs b : List Char}

/-- A part that starts with no character of a class does not start in a row of them. -/
theorem infix_of_append_left (ha : ∀ c ∈ a, p c = true) (hw : w.head?.any p = false)
    (h : w <:+: a ++ cs) : w <:+: cs := by
  induction a with
  | nil => exact h
  | cons c a ih =>
      obtain ⟨hc, ha⟩ := List.forall_mem_cons.mp ha
      rcases List.infix_cons_iff.mp h with hprefix | h
      · cases w with
        | nil => exact List.nil_infix
        | cons d w =>
            obtain rfl := (List.cons_prefix_cons.mp hprefix).1
            simp [hc] at hw
      · exact ih ha h

theorem infix_of_append_right (hb : ∀ c ∈ b, p c = true) (hw : w.getLast?.any p = false)
    (h : w <:+: cs ++ b) : w <:+: cs := by
  rw [← List.reverse_infix, List.reverse_append] at h
  rw [← List.reverse_infix]
  refine infix_of_append_left (fun c hc => hb c (List.mem_reverse.mp hc)) ?_ h
  rwa [List.head?_reverse]

end

/-- The words that a label can name a property by. -/
def labelWords : List String :=
  ["line height", "line-height", "leading"] ++ ["font size", "font-size", "text size"]
    ++ ["weight"] ++ ["radius", "rounded", "corner"] ++ ["height"] ++ ["width"] ++ ["padding"]
    ++ ["margin"] ++ ["gap"]

theorem isSome_ofLabel?_iff {label : String} : (Property.ofLabel? label).isSome = true ↔
    ∃ w ∈ labelWords, holds w.toList (lowered label.toList) = true := by
  have hstep : ∀ (b : Bool) (p : Property) (later : Option Property),
      (if b = true then some p else later).isSome = (b || later.isSome) := by
    intro b p later
    cases b <;> rfl
  rw [← List.any_eq_true, Property.ofLabel?, labelWords]
  dsimp only
  -- which words are mentioned decides, and not what it is to mention a word
  generalize (fun w : String => holds w.toList (lowered label.toList)) = mentions
  simp only [hstep, List.any_append, Bool.or_assoc, Option.isSome_none, Bool.or_false]

theorem labelWords_ends : ∀ w ∈ labelWords,
    w.toList.head?.any isBlank = false ∧ w.toList.getLast?.any isBlank = false := by decide

theorem isBlank_of_mem_lowered {a : List Char} (ha : ∀ c ∈ a, isBlank c = true) :
    ∀ c ∈ lowered a, isBlank c = true := by
  intro c hc
  obtain ⟨d, hd, rfl⟩ := List.mem_map.mp hc
  have hblank := ha d hd
  simp only [isBlank, Bool.or_eq_true, decide_eq_true_eq] at hblank
  rcases hblank with ((((rfl | rfl) | rfl) | rfl) | rfl) | rfl <;> decide

theorem isSome_ofLabel?_blanks {a inner b : List Char} (ha : ∀ c ∈ a, isBlank c = true)
    (hb : ∀ c ∈ b, isBlank c = true) :
    (Property.ofLabel? (String.ofList inner)).isSome
      = (Property.ofLabel? (String.ofList (a ++ (inner ++ b)))).isSome := by
  have hcut : lowered (a ++ (inner ++ b)) = lowered a ++ (lowered inner ++ lowered b) := by
    simp [lowered]
  rw [Bool.eq_iff_iff, isSome_ofLabel?_iff, isSome_ofLabel?_iff, String.toList_ofList,
    String.toList_ofList]
  refine exists_congr fun w => and_congr_right fun hw => ?_
  obtain ⟨hfirst, hlast⟩ := labelWords_ends w hw
  simp only [hcut, holds_iff_infix]
  constructor
  · intro h
    exact h.trans ⟨lowered a, lowered b, List.append_assoc ..⟩
  · intro h
    exact infix_of_append_right (isBlank_of_mem_lowered hb) hlast
      (infix_of_append_left (isBlank_of_mem_lowered ha) hfirst h)

/-- Blanks around a label do not decide whether it names a property. -/
theorem isSome_ofLabel?_stripBlanks (label : String) :
    (Property.ofLabel? (String.ofList (stripBlanks label.toList))).isSome
      = (Property.ofLabel? label).isSome := by
  obtain ⟨a, b, hlabel, ha, hb⟩ := exists_stripBlanks label.toList
  rw [isSome_ofLabel?_blanks ha hb, ← hlabel, String.ofList_toList]

/-! ## Whole numbers in a unit -/

section

variable {digits : List Char} {u : LengthUnit}

theorem toBinary64?_digits (digits : List Char) :
    (⟨digits, []⟩ : Decimal).toBinary64? = Binary64.ofRatio? (digitsValue digits) 1 := by
  rw [Decimal.toBinary64?, List.append_nil]
  rfl

/-- Of the values that a whole number is measured by, none is left out for a fraction. -/
theorem bind_toNat?_eq_none_iff {o : Option Binary64} (h : ∀ x ∈ o, ∃ n : Nat, x.value = n) :
    o.bind Binary64.toNat? = none ↔ o = none := by
  cases o with
  | none => simp
  | some x =>
      obtain ⟨n, hn⟩ := h x rfl
      rw [Option.bind_some, Binary64.toNat?_eq_some_iff.mpr hn]
      simp

/-- A whole number of a unit is refused if it is too large a number of pixels for the format. -/
theorem wholePixels?_eq_none_iff :
    wholePixels? ⟨digits, []⟩ u = none ↔ Binary64.overflow ≤ digitsValue digits * u.pixels := by
  have hwhole : ∀ x ∈ Binary64.ofRatio? (digitsValue digits) 1, ∃ n : Nat, x.value = n :=
    fun x hx => Binary64.exists_value_of_ofNat? hx
  have hsame : u ≠ .rem →
      wholePixels? ⟨digits, []⟩ u
        = (Binary64.ofRatio? (digitsValue digits) 1).bind Binary64.toNat? := by
    intro hu
    rw [wholePixels?, toBinary64?_digits]
    cases u with
    | rem => exact absurd rfl hu
    | none => rfl
    | px => rfl
  by_cases hu : u = .rem
  · subst hu
    have hread : wholePixels? ⟨digits, []⟩ .rem
        = ((Binary64.ofRatio? (digitsValue digits) 1).bind Binary64.timesSixteen?).bind
          Binary64.toNat? := by
      rw [wholePixels?, toBinary64?_digits, Option.bind_assoc]
      rfl
    rw [hread, bind_toNat?_eq_none_iff, Binary64.bind_timesSixteen?_eq_none_iff Nat.one_pos,
      Nat.cast_one, div_one, LengthUnit.pixels]
    · exact_mod_cast Iff.rfl
    · intro y hy
      obtain ⟨x, hx, hy⟩ := Option.bind_eq_some_iff.mp hy
      obtain ⟨n, hn⟩ := hwhole x hx
      exact ⟨n * 16, by rw [Binary64.value_of_timesSixteen? hy, hn, Nat.cast_mul]; rfl⟩
  · have hpixels : u.pixels = 1 := by
      cases u with
      | rem => exact absurd rfl hu
      | none => rfl
      | px => rfl
    rw [hsame hu, bind_toNat?_eq_none_iff hwhole, Binary64.ofRatio?_eq_none_iff Nat.one_pos,
      Nat.cast_one, div_one, Nat.cast_le, hpixels, Nat.mul_one]

theorem value_digits (digits : List Char) :
    (⟨digits, []⟩ : Decimal).value = digitsValue digits := by
  simp [Decimal.value]

/-- A whole number of a unit is read as that number of pixels, up to the greatest one. -/
theorem min_of_wholePixels? {n : Nat} (h : wholePixels? ⟨digits, []⟩ u = some n) :
    min n maxPixels = min (digitsValue digits * u.pixels) maxPixels := by
  by_cases hsmall : digitsValue digits * u.pixels ≤ maxPixels
  · have hread : wholePixels? ⟨digits, []⟩ u = some (digitsValue digits * u.pixels) := by
      rw [wholePixels?_eq_some_iff hsmall]
      refine nearest_of_value ?_ hsmall
      rw [value_digits, Nat.cast_mul]
    rw [h] at hread
    rw [Option.some.inj hread]
  · -- the greatest number of pixels is a value, and no value below it is nearer
    have hlarge : maxPixels ≤ n := by
      by_contra hlt
      have hn : n ≤ maxPixels := (not_le.mp hlt).le
      have hnear := (wholePixels?_eq_some_iff hn).mp h
      have hpos := u.pixels_pos
      have hle := hnear.le _ (isBinary64_div le_rfl u)
      have hbelow : (n / u.pixels : ℚ) < maxPixels / u.pixels := by
        gcongr
        exact_mod_cast not_le.mp hlt
      have habove : (maxPixels / u.pixels : ℚ) < digitsValue digits := by
        rw [div_lt_iff₀ hpos]
        exact_mod_cast not_le.mp hsmall
      rw [value_digits, abs_of_pos (by linarith), abs_of_pos (by linarith)] at hle
      linarith
    rw [min_eq_right hlarge, min_eq_right (not_le.mp hsmall).le]

end

/-! ## Lines -/

/-- The line of a label and a number in a unit. -/
def lengthLine (label : String) (digits : List Char) (u : LengthUnit) : String :=
  label ++ ": " ++ String.ofList (digits ++ u.text)

section

variable {label : String} {digits : List Char} {u : LengthUnit}

theorem length?_digits (hdigits : IsDigits digits) (hu : u ≠ .none) :
    length? (digits ++ u.text) = some (⟨digits, []⟩, u) := by
  cases u with
  | none => exact absurd rfl hu
  | px =>
      have hread := read_digits hdigits (endsDecimal_cons (c := 'p') rfl (by decide) ['x'])
      simp only [length?, LengthUnit.text, hread, Option.bind_eq_bind, Option.bind_some]
      rfl
  | rem =>
      have hread := read_digits hdigits (endsDecimal_cons (c := 'r') rfl (by decide) ['e', 'm'])
      simp only [length?, LengthUnit.text, hread, Option.bind_eq_bind, Option.bind_some]
      rfl

/-- What the line of a label and a whole number is read as. -/
theorem spacingRequirement?_lengthLine (hcolon : ':' ∉ label.toList) (hdigits : IsDigits digits)
    (hu : u ≠ .none) :
    spacingRequirement? (lengthLine label digits u)
      = (wholePixels? ⟨digits, []⟩ u).bind fun n =>
          (Property.ofLabel? (String.ofList (stripBlanks label.toList))).map fun p =>
            ⟨String.ofList (stripBlanks label.toList), p, min n maxPixels,
              trimmed (lengthLine label digits u)⟩ := by
  have hcut : cut? ':' (lengthLine label digits u).toList
      = some (label.toList, ' ' :: (digits ++ u.text)) := by
    refine cut?_eq_some_iff.mpr ⟨?_, hcolon⟩
    simp [lengthLine]
  have hblank : skipBlanks (' ' :: (digits ++ u.text)) = digits ++ u.text := by
    obtain ⟨c, cs, rfl⟩ := List.exists_cons_of_ne_nil hdigits.1
    have hc : isBlank c = false :=
      isBlank_of_isIdent (isIdent_of_isDigit (hdigits.2 c (List.mem_cons_self ..)))
    rw [List.cons_append, skipBlanks, List.dropWhile_cons_of_pos (by decide),
      List.dropWhile_cons_of_neg (by simp [hc])]
  simp only [spacingRequirement?, hcut, Option.bind_eq_bind, Option.bind_some, hblank,
    length?_digits hdigits hu, Option.map_eq_bind]
  rfl

/-- A line that says a number of pixels: it is read as that number or not at all, and it is not read
if no token can stand for the number. -/
structure Faithful (line : String) (n : Nat) : Prop where
  pixels_eq : ∀ r, spacingRequirement? line = some r → r.pixels = n
  eq_none : maxPixels < n → spacingRequirement? line = none

theorem spacingRequirement?_lengthLine_eq_none_iff (hcolon : ':' ∉ label.toList)
    (hlabel : (Property.ofLabel? label).isSome = true) (hdigits : IsDigits digits)
    (hu : u ≠ .none) :
    spacingRequirement? (lengthLine label digits u) = none ↔
      Binary64.overflow ≤ digitsValue digits * u.pixels := by
  rw [spacingRequirement?_lengthLine hcolon hdigits hu, ← wholePixels?_eq_none_iff]
  rw [← isSome_ofLabel?_stripBlanks] at hlabel
  obtain ⟨p, hp⟩ := Option.isSome_iff_exists.mp hlabel
  cases wholePixels? ⟨digits, []⟩ u with
  | none => simp
  | some n => simp [hp]

theorem pixels_of_lengthLine {r : SpacingRequirement} (hcolon : ':' ∉ label.toList)
    (hdigits : IsDigits digits) (hu : u ≠ .none)
    (h : spacingRequirement? (lengthLine label digits u) = some r) :
    r.pixels = min (digitsValue digits * u.pixels) maxPixels := by
  rw [spacingRequirement?_lengthLine hcolon hdigits hu] at h
  obtain ⟨n, hn, h⟩ := Option.bind_eq_some_iff.mp h
  obtain ⟨p, -, rfl⟩ := Option.map_eq_some_iff.mp h
  exact min_of_wholePixels? hn

/-- A line of a label that names a property, a whole number and a unit is read unless the number of
pixels is too large for binary64; it is read as that number, or as the greatest one if it is above
that. So it is read as what it says unless it is above the greatest number and is read. -/
theorem faithful_lengthLine_iff (hcolon : ':' ∉ label.toList)
    (hlabel : (Property.ofLabel? label).isSome = true) (hdigits : IsDigits digits)
    (hu : u ≠ .none) :
    ((spacingRequirement? (lengthLine label digits u)).isSome = true ↔
        digitsValue digits * u.pixels < Binary64.overflow) ∧
      (∀ r, spacingRequirement? (lengthLine label digits u) = some r →
        r.pixels = min (digitsValue digits * u.pixels) maxPixels) ∧
      (Faithful (lengthLine label digits u) (digitsValue digits * u.pixels) ↔
        digitsValue digits * u.pixels ≤ maxPixels ∨
          Binary64.overflow ≤ digitsValue digits * u.pixels) := by
  have hnone := spacingRequirement?_lengthLine_eq_none_iff hcolon hlabel hdigits hu
  have hpixels : ∀ r, spacingRequirement? (lengthLine label digits u) = some r →
      r.pixels = min (digitsValue digits * u.pixels) maxPixels :=
    fun r => pixels_of_lengthLine hcolon hdigits hu
  refine ⟨?_, hpixels, ?_⟩
  · rw [← not_le, ← hnone, Option.isSome_iff_ne_none]
  · constructor
    · intro h
      rcases le_or_gt (digitsValue digits * u.pixels) maxPixels with hle | hgt
      · exact .inl hle
      · exact .inr (hnone.mp (h.eq_none hgt))
    · rintro (hle | hlarge)
      · exact ⟨fun r hr => (hpixels r hr).trans (min_eq_left hle), fun h => absurd hle h.not_ge⟩
      · have hrefused := hnone.mpr hlarge
        refine ⟨fun r hr => ?_, fun _ => hrefused⟩
        rw [hrefused] at hr
        cases hr

/-- The greatest whole number of rems that a token can stand for, with a zero in front. -/
theorem faithful_lengthLine_height :
    (':' ∉ "Base height".toList ∧ (Property.ofLabel? "Base height").isSome = true ∧
        IsDigits "0268435455".toList ∧ LengthUnit.rem ≠ .none) ∧
      spacingRequirement? (lengthLine "Base height" "0268435455".toList .rem)
        = some ⟨"Base height", .height, 4294967280, "Base height: 0268435455rem"⟩ ∧
      Faithful (lengthLine "Base height" "0268435455".toList .rem) 4294967280 := by
  have hcolon : ':' ∉ "Base height".toList := by decide
  have hlabel : (Property.ofLabel? "Base height").isSome = true := by decide
  have hdigits : IsDigits "0268435455".toList := ⟨by decide, by decide⟩
  have hunit : LengthUnit.rem ≠ .none := by decide
  have hvalue : digitsValue "0268435455".toList * LengthUnit.rem.pixels = 4294967280 := by decide
  refine ⟨⟨hcolon, hlabel, hdigits, hunit⟩, by decide +kernel, ?_⟩
  have hfaithful := (faithful_lengthLine_iff hcolon hlabel hdigits hunit).2.2
  rw [hvalue] at hfaithful
  exact hfaithful.mpr (.inl (by decide))

/-- A number of pixels that no token can stand for is read as another one, in either unit. -/
theorem not_faithful_lengthLine :
    (spacingRequirement? (lengthLine "Base height" "4294967296".toList .px)
        = some ⟨"Base height", .height, 4294967295, "Base height: 4294967296px"⟩ ∧
      ¬Faithful (lengthLine "Base height" "4294967296".toList .px) 4294967296) ∧
    spacingRequirement? (lengthLine "Base height" "268435456".toList .rem)
        = some ⟨"Base height", .height, 4294967295, "Base height: 268435456rem"⟩ ∧
      ¬Faithful (lengthLine "Base height" "268435456".toList .rem) 4294967296 := by
  have hpx : spacingRequirement? (lengthLine "Base height" "4294967296".toList .px)
      = some ⟨"Base height", .height, 4294967295, "Base height: 4294967296px"⟩ := by
    decide
  have hrem : spacingRequirement? (lengthLine "Base height" "268435456".toList .rem)
      = some ⟨"Base height", .height, 4294967295, "Base height: 268435456rem"⟩ := by
    decide +kernel
  have hne : (4294967295 : Nat) ≠ 4294967296 := by decide
  exact ⟨⟨hpx, fun h => hne (h.pixels_eq _ hpx)⟩, hrem, fun h => hne (h.pixels_eq _ hrem)⟩

end

end DesignTokens
