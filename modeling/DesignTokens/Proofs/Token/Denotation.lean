import Mathlib.Tactic.FieldSimp
import Mathlib.Tactic.Linarith
import Mathlib.Tactic.NormNum
import Mathlib.Tactic.Positivity
import DesignTokens.Proofs.Number.Nearest
import DesignTokens.Proofs.Token.Bare

/-!
# The number that a word is read as

A word without white space around it and without modifiers denotes a number of
pixels by a key of the scale or by one number in brackets that is, in its unit,
exactly that number (`Property.Denotes`). Every such word is read as what it
denotes, but not every word that is read denotes something (`Property.Misread`):
a number in brackets is searched for anywhere behind an opening bracket, and it is
rounded to binary64 before it is tested to be whole (`wholePixels?_eq_some_iff`).
-/

namespace DesignTokens

open Text Number

/-! ## Lengths -/

namespace Number

/-- The number that a decimal stands for. -/
def Decimal.value (d : Decimal) : ℚ :=
  digitsValue (d.whole ++ d.fraction) / 10 ^ d.fraction.length

theorem Decimal.toBinary64?_eq (d : Decimal) :
    d.toBinary64? = Binary64.ofRatio? (digitsValue (d.whole ++ d.fraction))
      (10 ^ d.fraction.length) := rfl

theorem Decimal.value_eq (d : Decimal) :
    d.value = digitsValue (d.whole ++ d.fraction) / (10 ^ d.fraction.length : Nat) := by
  rw [Decimal.value, Nat.cast_pow, Nat.cast_ofNat]

/-- No value is nearer to a value of the format than the value itself. -/
theorem nearest_self {v : ℚ} (hv : IsBinary64 v) : Nearest v v where
  isBinary64 := hv
  le u _ := by
    rw [sub_self, abs_zero]
    exact abs_nonneg _

end Number

/-- The number of pixels in a unit. -/
def LengthUnit.pixels : LengthUnit → Nat
  | .rem => 16
  | _ => 1

theorem LengthUnit.pixels_pos (u : LengthUnit) : (0 : ℚ) < u.pixels := by
  cases u <;> norm_num [pixels]

/-- A number of pixels, in any unit, is a number of pixels times a power of two. -/
theorem LengthUnit.exists_div_eq (u : LengthUnit) :
    ∃ j : Int, Binary64.minExponent < j ∧ j ≤ 0 ∧
      ∀ n : Nat, (n / u.pixels : ℚ) = n * 2 ^ j := by
  cases u with
  | rem => exact ⟨-4, by decide, by decide, fun n => by norm_num [pixels, div_eq_mul_inv]⟩
  | none => exact ⟨0, by decide, by decide, fun n => by norm_num [pixels]⟩
  | px => exact ⟨0, by decide, by decide, fun n => by norm_num [pixels]⟩

theorem lt_of_le_maxPixels {n : Nat} (h : n ≤ maxPixels) : n < 2 ^ 32 :=
  Nat.lt_of_le_of_lt h (by decide)

theorem isBinary64_div {n : Nat} (h : n ≤ maxPixels) (u : LengthUnit) :
    IsBinary64 (n / u.pixels) := by
  obtain ⟨j, hmin, hj, hdiv⟩ := u.exists_div_eq
  exact ⟨n, j, (lt_of_le_maxPixels h).trans (by norm_num), hmin.le, hj.trans (by decide), hdiv n⟩

theorem nearest_of_value {d : Decimal} {u : LengthUnit} {n : Nat} (h : d.value * u.pixels = n)
    (hn : n ≤ maxPixels) : Nearest d.value (n / u.pixels) := by
  have hwhole := isBinary64_div hn u
  have hvalue : (n / u.pixels : ℚ) = d.value := by
    rw [← h, mul_div_cancel_right₀ _ u.pixels_pos.ne']
  rw [hvalue] at hwhole ⊢
  exact nearest_self hwhole

/-- A length is whole if its binary64 value is. -/
theorem wholePixels?_iff_value {d : Decimal} {u : LengthUnit} {n : Nat} (hn : n ≤ maxPixels) :
    wholePixels? d u = some n ↔ ∃ x, d.toBinary64? = some x ∧ x.value * u.pixels = n := by
  have hplain : d.toBinary64?.bind Binary64.toNat? = some n ↔
      ∃ x, d.toBinary64? = some x ∧ x.value * (1 : Nat) = n := by
    simp only [Option.bind_eq_some_iff, Binary64.toNat?_eq_some_iff, Nat.cast_one, mul_one]
  cases u with
  | none => exact hplain
  | px => exact hplain
  | rem =>
      have hread : wholePixels? d .rem
          = d.toBinary64?.bind fun x => x.timesSixteen?.bind Binary64.toNat? := rfl
      rw [hread, Option.bind_eq_some_iff]
      refine exists_congr fun x => and_congr_right fun hx => ?_
      constructor
      · intro h
        obtain ⟨y, hy, hnat⟩ := Option.bind_eq_some_iff.mp h
        rw [← Binary64.toNat?_eq_some_iff.mp hnat, Binary64.value_of_timesSixteen? hy]
        norm_num [LengthUnit.pixels]
      · intro h
        have hvalue : x.value * 16 = n := by exact_mod_cast h
        have hsmall : x.value * 16 ≤ 2 ^ 53 := by
          rw [hvalue]
          exact_mod_cast (lt_of_le_maxPixels hn).le.trans (by norm_num)
        obtain ⟨y, hy⟩ := Binary64.exists_timesSixteen?
          (Binary64.mantissa_le_of_ofRatio? (Nat.pow_pos (by decide)) hx) hsmall
        rw [hy, Option.bind_some, Binary64.toNat?_eq_some_iff, Binary64.value_of_timesSixteen? hy,
          hvalue]

/-- A decimal is read as the number of pixels that is nearest to it, if no value of the format is
nearer. -/
theorem wholePixels?_eq_some_iff {d : Decimal} {u : LengthUnit} {n : Nat} (hn : n ≤ maxPixels) :
    wholePixels? d u = some n ↔ Nearest d.value (n / u.pixels) := by
  have hden : 0 < 10 ^ d.fraction.length := Nat.pow_pos (by decide)
  rw [wholePixels?_iff_value hn, Decimal.toBinary64?_eq, Decimal.value_eq]
  constructor
  · rintro ⟨x, hx, hvalue⟩
    rw [← hvalue, mul_div_cancel_right₀ _ u.pixels_pos.ne']
    exact Binary64.nearest_of_ofRatio? hden hx
  · intro h
    obtain ⟨j, hmin, hj, hdiv⟩ := u.exists_div_eq
    rw [hdiv] at h
    obtain ⟨x, hx, hvalue⟩ := Binary64.ofRatio?_eq_of_nearest hden
      ((lt_of_le_maxPixels hn).trans (by norm_num)) hmin hj h
    exact ⟨x, hx, by rw [hvalue, ← hdiv, div_mul_cancel₀ _ u.pixels_pos.ne']⟩

/-! ## The number in brackets -/

/-- A number in brackets as it is written. -/
def bracketText (d : Decimal) (u : LengthUnit) : List Char :=
  '[' :: (d.text ++ (u.text ++ [']']))

theorem isBracketed_bracketText {d : Decimal} (hd : d.WellFormed) (u : LengthUnit) :
    IsBracketed (bracketText d u) :=
  ⟨_, isDecimal_iff_text.mpr ⟨d, hd, rfl⟩, _, u.text_mem, rfl⟩

theorem bracket?_bracketText {d : Decimal} (hd : d.WellFormed) (u : LengthUnit)
    (rest : List Char) : bracket? (bracketText d u ++ rest) = some (d, u, rest) := by
  simpa [bracketText] using bracket?_text hd u rest

theorem bracket?_eq_none_iff {cs : List Char} :
    bracket? cs = none ↔ ∀ key, IsBracketed key → ¬key <+: cs := by
  constructor
  · rintro hnone key hkey ⟨rest, rfl⟩
    obtain ⟨d, u, hread⟩ := exists_bracket_append hkey rest
    rw [hread] at hnone
    cases hnone
  · intro hno
    cases hread : bracket? cs with
    | none => rfl
    | some found =>
        obtain ⟨key, hkey, heq⟩ := isBracketed_of_bracket (u := found.2.1) hread
        exact absurd ⟨_, heq.symm⟩ (hno key hkey)

/-- The first number in brackets of a text, with what stands in front of it and behind it. -/
structure FirstBracket (text lead : List Char) (d : Decimal) (u : LengthUnit)
    (behind : List Char) : Prop where
  wellFormed : d.WellFormed
  eq : text = lead ++ (bracketText d u ++ behind)
  first : ∀ k < lead.length, ∀ key, IsBracketed key → ¬key <+: text.drop k

theorem FirstBracket.alone {d : Decimal} (hd : d.WellFormed) (u : LengthUnit) :
    FirstBracket (bracketText d u) [] d u [] where
  wellFormed := hd
  eq := by rw [List.nil_append, List.append_nil]
  first k hk := absurd hk (Nat.not_lt_zero k)

theorem FirstBracket.cons {c : Char} {cs lead behind : List Char} {d : Decimal} {u : LengthUnit}
    (h : FirstBracket cs lead d u behind) (hc : bracket? (c :: cs) = none) :
    FirstBracket (c :: cs) (c :: lead) d u behind where
  wellFormed := h.wellFormed
  eq := by rw [h.eq, List.cons_append]
  first k hk := by
    cases k with
    | zero => exact bracket?_eq_none_iff.mp hc
    | succ k => exact h.first k (Nat.lt_of_succ_lt_succ hk)

theorem FirstBracket.tail {c : Char} {cs lead behind : List Char} {d : Decimal} {u : LengthUnit}
    (h : FirstBracket (c :: cs) (c :: lead) d u behind) :
    bracket? (c :: cs) = none ∧ FirstBracket cs lead d u behind :=
  ⟨bracket?_eq_none_iff.mpr (h.first 0 (Nat.succ_pos _)), h.wellFormed,
    (List.cons.inj h.eq).2, fun k hk => h.first (k + 1) (Nat.succ_lt_succ hk)⟩

/-- The reader finds the first number in brackets, wherever it stands. -/
theorem firstBracket?_eq_some_iff {text : List Char} {d : Decimal} {u : LengthUnit} :
    firstBracket? text = some (d, u) ↔ ∃ lead behind, FirstBracket text lead d u behind := by
  induction text with
  | nil =>
      refine iff_of_false (by simp [firstBracket?]) ?_
      rintro ⟨lead, behind, h⟩
      simpa [bracketText] using congrArg List.length h.eq
  | cons c cs ih =>
      rw [firstBracket?]
      cases hread : bracket? (c :: cs) with
      | some found =>
          obtain ⟨d', u', rest⟩ := found
          obtain ⟨hd', heq⟩ := text_of_bracket hread
          rw [Option.some_inj, Prod.mk.injEq]
          constructor
          · rintro ⟨rfl, rfl⟩
            exact ⟨[], rest, hd', by simpa [bracketText] using heq, fun k hk => absurd hk (by simp)⟩
          · rintro ⟨lead, behind, h⟩
            cases lead with
            | nil =>
                have heq' := h.eq
                rw [List.nil_append] at heq'
                rw [heq', bracket?_bracketText h.wellFormed] at hread
                cases hread
                exact ⟨rfl, rfl⟩
            | cons a lead =>
                obtain rfl : c = a := (List.cons.inj h.eq).1
                rw [h.tail.1] at hread
                cases hread
      | none =>
          dsimp only
          rw [ih]
          constructor
          · rintro ⟨lead, behind, h⟩
            exact ⟨c :: lead, behind, h.cons hread⟩
          · rintro ⟨lead, behind, h⟩
            cases lead with
            | nil =>
                have heq := h.eq
                rw [List.nil_append] at heq
                rw [heq, bracket?_bracketText h.wellFormed] at hread
                cases hread
            | cons a lead =>
                obtain rfl : c = a := (List.cons.inj h.eq).1
                exact ⟨lead, behind, h.tail.2⟩

theorem bracketPixels?_eq_some_iff {key : List Char} {n : Nat} :
    bracketPixels? key = some n ↔ n ≤ maxPixels ∧
      ∃ lead d u behind, FirstBracket key lead d u behind ∧ Nearest d.value (n / u.pixels) := by
  have hread : bracketPixels? key = some n ↔ ∃ d u, firstBracket? key = some (d, u) ∧
      wholePixels? d u = some n ∧ n ≤ maxPixels := by
    simp only [bracketPixels?, Option.bind_eq_bind, Option.bind_eq_some_iff, Prod.exists]
    refine exists_congr fun d => exists_congr fun u => and_congr_right fun _ => ?_
    constructor
    · rintro ⟨m, hm, h⟩
      split at h
      case isTrue hle => exact ⟨by rw [hm, h], by cases h; exact hle⟩
      case isFalse => cases h
    · rintro ⟨hm, hle⟩
      exact ⟨n, hm, if_pos hle⟩
  rw [hread]
  constructor
  · rintro ⟨d, u, hfirst, hwhole, hn⟩
    obtain ⟨lead, behind, h⟩ := firstBracket?_eq_some_iff.mp hfirst
    exact ⟨hn, lead, d, u, behind, h, (wholePixels?_eq_some_iff hn).mp hwhole⟩
  · rintro ⟨hn, lead, d, u, behind, h, hnear⟩
    exact ⟨d, u, firstBracket?_eq_some_iff.mpr ⟨lead, behind, h⟩,
      (wholePixels?_eq_some_iff hn).mpr hnear, hn⟩

/-! ## Words -/

namespace Property

variable {p : Property} {word : List Char} {n : Nat}

/-- The words that stand for a number of pixels: the utility name and a key of the scale with that
value, the name alone for an empty key, or the name and one number in brackets that is exactly the
number of pixels. -/
inductive Denotes (p : Property) : List Char → Nat → Prop
  | name {n : Nat} : ("", n) ∈ p.scale → Denotes p p.utility.toList n
  | key {key : String} {n : Nat} : (key, n) ∈ p.scale →
      Denotes p (p.utility.toList ++ '-' :: key.toList) n
  | bracket {d : Decimal} {u : LengthUnit} {n : Nat} : d.WellFormed → d.value * u.pixels = n →
      n ≤ maxPixels → Denotes p (p.utility.toList ++ '-' :: bracketText d u) n

/-- The words that are read as a number of pixels and do not stand for it: there is more than one
number in brackets behind the dash, or the number is not whole and a whole one is nearest. -/
inductive Misread (p : Property) : List Char → Nat → Prop
  | loose {key lead behind : List Char} {d : Decimal} {u : LengthUnit} {n : Nat} :
      FirstBracket key lead d u behind → lead ≠ [] ∨ behind ≠ [] → key.head? = some '[' →
      Nearest d.value (n / u.pixels) → n ≤ maxPixels →
      Misread p (p.utility.toList ++ '-' :: key) n
  | rounded {d : Decimal} {u : LengthUnit} {n : Nat} : d.WellFormed → d.value * u.pixels ≠ n →
      Nearest d.value (n / u.pixels) → n ≤ maxPixels →
      Misread p (p.utility.toList ++ '-' :: bracketText d u) n

theorem key?_eq_some_iff {key : List Char} :
    p.key? word = some key ↔
      word = p.utility.toList ∧ key = [] ∨ word = p.utility.toList ++ '-' :: key := by
  constructor
  · intro h
    rw [key?] at h
    split at h
    case isTrue hname => exact .inl ⟨hname, (Option.some.inj h).symm⟩
    case isFalse => exact .inr (by simpa using after_eq_some_iff.mp h)
  · rintro (⟨rfl, rfl⟩ | rfl)
    · exact p.key?_utility
    · exact p.key?_append key

theorem keyPixels?_eq_some_iff {key : List Char} :
    p.keyPixels? key = some n ↔ ∃ k, (k, n) ∈ p.scale ∧ key = k.toList := by
  constructor
  · intro h
    obtain ⟨e, hfind, rfl⟩ := Option.map_eq_some_iff.mp h
    have hkey : e.1.toList = key := by simpa using List.find?_some hfind
    exact ⟨e.1, List.mem_of_find?_eq_some hfind, hkey.symm⟩
  · rintro ⟨k, hk, rfl⟩
    exact p.keyPixels?_of_mem _ hk

/-- A word that opens a bracket denotes something by a number in brackets only. -/
theorem Denotes.exists_bracket {cs : List Char}
    (h : p.Denotes (p.utility.toList ++ '-' :: '[' :: cs) n) :
    ∃ d u, Decimal.WellFormed d ∧ d.value * u.pixels = n ∧ '[' :: cs = bracketText d u := by
  generalize heq : p.utility.toList ++ '-' :: '[' :: cs = word at h
  cases h with
  | name h => simpa using congrArg List.length heq
  | key h =>
      have hkey := (List.cons.inj (List.append_cancel_left heq)).2
      exact absurd (by rw [← hkey]; rfl) (p.head?_key_ne _ h)
  | bracket hd hvalue _ =>
      exact ⟨_, _, hd, hvalue, (List.cons.inj (List.append_cancel_left heq)).2⟩

theorem Misread.not_denotes (h : p.Misread word n) : ¬p.Denotes word n := by
  cases h with
  | @loose key lead behind d u _ hfirst hmore hopen hnear hn =>
      intro hdenotes
      obtain ⟨cs, rfl⟩ : ∃ cs, key = '[' :: cs := List.head?_eq_some_iff.mp hopen
      obtain ⟨d', u', hd', -, heq⟩ := hdenotes.exists_bracket
      cases lead with
      | nil =>
          have hread := bracket?_bracketText hfirst.wellFormed u behind
          have heq' := hfirst.eq
          rw [List.nil_append] at heq'
          rw [← heq', heq, ← List.append_nil (bracketText d' u'), bracket?_bracketText hd'] at hread
          cases hread
          simp at hmore
      | cons c lead =>
          refine hfirst.first 0 (Nat.succ_pos _) _ (isBracketed_bracketText hd' u') ?_
          rw [List.drop_zero, heq]
  | @rounded d u _ hd hne hnear hn =>
      intro hdenotes
      obtain ⟨d', u', hd', hvalue, heq⟩ := hdenotes.exists_bracket
      have hread := bracket?_bracketText hd u []
      rw [List.append_nil] at hread
      have hread' := bracket?_bracketText hd' u' []
      rw [List.append_nil, ← heq] at hread'
      cases hread.symm.trans hread'
      exact hne hvalue

theorem barePixels?_eq_some_iff :
    p.barePixels? word = some n ↔ p.Denotes word n ∨ p.Misread word n := by
  constructor
  · intro h
    obtain ⟨key, hkey, hvalue⟩ := Option.bind_eq_some_iff.mp h
    split at hvalue
    case isTrue hopen =>
      obtain ⟨rfl, rfl⟩ | rfl := key?_eq_some_iff.mp hkey
      · cases hopen
      obtain ⟨hn, lead, d, u, behind, hfirst, hnear⟩ := bracketPixels?_eq_some_iff.mp hvalue
      by_cases hmore : lead ≠ [] ∨ behind ≠ []
      · exact .inr (.loose hfirst hmore hopen hnear hn)
      · obtain ⟨rfl, rfl⟩ : lead = [] ∧ behind = [] := by simpa using hmore
        have heq := hfirst.eq
        rw [List.nil_append, List.append_nil] at heq
        rw [heq]
        by_cases hexact : d.value * u.pixels = n
        · exact .inl (.bracket hfirst.wellFormed hexact hn)
        · exact .inr (.rounded hfirst.wellFormed hexact hnear hn)
    case isFalse =>
      obtain ⟨k, hk, rfl⟩ := keyPixels?_eq_some_iff.mp hvalue
      obtain ⟨rfl, hnil⟩ | rfl := key?_eq_some_iff.mp hkey
      · rw [String.toList_eq_nil_iff] at hnil
        exact .inl (.name (hnil ▸ hk))
      · exact .inl (.key hk)
  · have hbracket : ∀ {key lead d u behind}, FirstBracket key lead d u behind →
        key.head? = some '[' → Nearest d.value (n / u.pixels) → n ≤ maxPixels →
        p.barePixels? (p.utility.toList ++ '-' :: key) = some n := by
      intro key lead d u behind hfirst hopen hnear hn
      rw [barePixels?_append, if_pos hopen]
      exact bracketPixels?_eq_some_iff.mpr ⟨hn, lead, d, u, behind, hfirst, hnear⟩
    rintro ((h | h | ⟨hd, hvalue, hn⟩) | (⟨hfirst, -, hopen, hnear, hn⟩ | ⟨hd, -, hnear, hn⟩))
    · rw [barePixels?, key?_utility]
      exact keyPixels?_eq_some_iff.mpr ⟨"", h, rfl⟩
    · rw [barePixels?_append, if_neg (p.head?_key_ne _ h)]
      exact keyPixels?_eq_some_iff.mpr ⟨_, h, rfl⟩
    · exact hbracket (.alone hd _) rfl (nearest_of_value hvalue hn) hn
    · exact hbracket hfirst hopen hnear hn
    · exact hbracket (.alone hd _) rfl hnear hn

/-- A word is read as what it denotes, and the words that are misread are the only others. -/
theorem pixels?_iff_denotes (p : Property) (word : List Char) (n : Nat) :
    (p.pixels? word = some n ↔ p.Denotes (bareToken word) n ∨ p.Misread (bareToken word) n) ∧
      ((p.pixels? word = some n ↔ p.Denotes (bareToken word) n) ↔
        ¬p.Misread (bareToken word) n) := by
  have hread : p.pixels? word = some n ↔
      p.Denotes (bareToken word) n ∨ p.Misread (bareToken word) n := barePixels?_eq_some_iff
  refine ⟨hread, ?_⟩
  rw [hread]
  constructor
  · intro h hmis
    exact hmis.not_denotes (h.mp (.inr hmis))
  · intro hno
    exact or_iff_left hno

/-- More text behind the bracket and a fraction too small for the format: both words are read as a
number that they do not denote. -/
theorem not_pixels?_iff_denotes :
    (height.pixels? "h-[40px]junk".toList = some 40 ∧
      ¬height.Denotes (bareToken "h-[40px]junk".toList) 40) ∧
    (height.pixels? "h-[40.0000000000000001px]".toList = some 40 ∧
      ¬height.Denotes (bareToken "h-[40.0000000000000001px]".toList) 40) := by
  have hopen : ∀ {word : List Char} (cs : List Char),
      bareToken word = height.utility.toList ++ '-' :: '[' :: cs →
      height.Denotes (bareToken word) 40 →
      ∃ d u, bracket? ('[' :: cs) = some (d, u, []) ∧ d.value * u.pixels = (40 : Nat) := by
    intro word cs hword h
    rw [hword] at h
    obtain ⟨d, u, hd, hvalue, heq⟩ := h.exists_bracket
    exact ⟨d, u, by rw [heq, ← List.append_nil (bracketText d u), bracket?_bracketText hd], hvalue⟩
  refine ⟨⟨by decide, fun h => ?_⟩, by decide, fun h => ?_⟩
  · obtain ⟨d, u, hread, -⟩ := hopen "40px]junk".toList (by decide) h
    have hfalse : (bracket? "[40px]junk".toList).all (fun found => found.2.2 = []) = false := by
      decide
    rw [show "[40px]junk".toList = '[' :: "40px]junk".toList by decide, hread] at hfalse
    cases hfalse
  · obtain ⟨d, u, hread, hvalue⟩ := hopen "40.0000000000000001px]".toList (by decide) h
    have hsplit : bracket? ('[' :: "40.0000000000000001px]".toList)
        = some (⟨['4', '0'], "0000000000000001".toList⟩, .px, []) := by decide
    rw [hsplit] at hread
    cases hread
    have hdigits : digitsValue (['4', '0'] ++ "0000000000000001".toList) = 400000000000000001 := by
      decide
    have hlength : "0000000000000001".toList.length = 16 := by decide
    rw [Decimal.value, hdigits, hlength] at hvalue
    norm_num [LengthUnit.pixels] at hvalue

end Property

end DesignTokens
