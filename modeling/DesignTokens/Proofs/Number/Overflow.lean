import DesignTokens.Proofs.Number.Nearest

/-!
# Numbers that are too large

A quotient is rounded up to a power of two from the middle between that power and
the value below it on (`two_zpow_le_iff`), for in the middle it is the power that
has the even mantissa. So the numbers that are too large for the format are those
from `2 ^ 1024 - 2 ^ 970` on (`ofRatio?_eq_none_iff`), and a product by sixteen is
too large just when the exact product is (`bind_timesSixteen?_eq_none_iff`). A whole
number is rounded to a whole number (`exists_value_of_ofNat?`).
-/

namespace DesignTokens.Number.Binary64

/-- The least number that is too large for the format. -/
def overflow : Nat := 2 ^ 1024 - 2 ^ 970

theorem cast_two_pow (n : Nat) : ((Nat.pow 2 n : Nat) : ℚ) = 2 ^ (n : Int) := by
  rw [Nat.pow_eq, Nat.cast_pow, Nat.cast_two, zpow_natCast]

theorem cast_two_pow_sub {a b : Nat} (h : a ≤ b) :
    ((2 ^ b - 2 ^ a : Nat) : ℚ) = 2 ^ (b : Int) - 2 ^ (a : Int) := by
  rw [Nat.cast_sub (Nat.pow_le_pow_right (by decide) h), ← cast_two_pow, ← cast_two_pow]
  rfl

theorem cast_overflow : (overflow : ℚ) = 2 ^ (971 + 53 : Int) - 2 ^ (971 - 1 : Int) :=
  cast_two_pow_sub (by decide)

/-! ## Rounding up to a power of two -/

section

variable {v : ℚ} {m : Nat} {e k : Int}

theorem two_zpow_add_sub (k j i : Int) (h : k = j + i) : (2 : ℚ) ^ k = 2 ^ j * 2 ^ i := by
  rw [h, zpow_add₀ two_ne_zero]

theorem le_of_abs_sub_le_half {s : ℚ} {n : Nat} (hn : (n : ℚ) ≤ s) (hm : |s - m| ≤ 1 / 2) :
    n ≤ m := by
  have hbelow := (abs_le.mp hm).2
  have hlt : (n : ℚ) < (m + 1 : Nat) := by
    push_cast
    linarith
  exact Nat.lt_succ_iff.mp (by exact_mod_cast hlt)

/-- In the middle between the two greatest numbers of units the greater one is even. -/
theorem two_pow_le_iff {s : ℚ} (hm : |s - m| ≤ 1 / 2) (htie : |s - m| = 1 / 2 → Even m) :
    2 ^ 53 ≤ m ↔ (2 : ℚ) ^ 53 - 1 / 2 ≤ s := by
  obtain ⟨hlow, hhigh⟩ := abs_le.mp hm
  constructor
  · intro h
    have hcast : (2 : ℚ) ^ 53 ≤ m := by exact_mod_cast h
    linarith
  · intro h
    by_contra hlt
    have hge : 2 ^ 53 ≤ m + 1 := by
      have : (2 : ℚ) ^ 53 ≤ (m + 1 : Nat) := by
        push_cast
        linarith
      exact_mod_cast this
    have hnext : m + 1 = 2 ^ 53 := by omega
    have hcast : (m : ℚ) + 1 = 2 ^ 53 := by exact_mod_cast hnext
    have heq : |s - m| = 1 / 2 := le_antisymm hm (le_trans (by linarith) (le_abs_self _))
    have heven := Nat.even_iff.mp (htie heq)
    omega

/-- A number is rounded up to a power of two from the middle below that power on. -/
theorem two_zpow_le_iff (hk : minExponent ≤ k) (hupper : v < 2 ^ (e + 53))
    (hlower : e = minExponent ∨ (2 : ℚ) ^ (e + 52) ≤ v) (hm : |v / 2 ^ e - m| ≤ 1 / 2)
    (htie : |v / 2 ^ e - m| = 1 / 2 → Even m) :
    (2 : ℚ) ^ (k + 53) ≤ m * 2 ^ e ↔ (2 : ℚ) ^ (k + 53) - 2 ^ (k - 1) ≤ v := by
  have hpos : (0 : ℚ) < 2 ^ e := by positivity
  rcases lt_trichotomy e k with hlt | rfl | hgt
  · -- the number is below half of the power
    have hcast : (m : ℚ) ≤ 2 ^ (53 : Int) := by
      exact_mod_cast le_two_pow_of_le_half hupper hm
    have hhalf : (2 : ℚ) ^ (e + 53) ≤ 2 ^ (k + 52) := zpow_le_zpow_right₀ one_le_two (by omega)
    have hdouble : (2 : ℚ) ^ (k + 53) = 2 * 2 ^ (k + 52) := by
      rw [two_zpow_add_sub (k + 53) 1 (k + 52) (by ring), zpow_one]
    have hunit : (2 : ℚ) ^ (k - 1) < 2 ^ (k + 52) := zpow_lt_zpow_right₀ one_lt_two (by omega)
    refine iff_of_false (not_le.mpr ?_) (not_le.mpr (by linarith))
    calc (m : ℚ) * 2 ^ e ≤ 2 ^ (53 : Int) * 2 ^ e := by gcongr
      _ = 2 ^ (e + 53) := (two_zpow_add_sub _ _ _ (by ring)).symm
      _ < 2 ^ (k + 53) := zpow_lt_zpow_right₀ one_lt_two (by omega)
  · have hpower : (2 : ℚ) ^ (e + 53) = 2 ^ 53 * 2 ^ e := by
      rw [two_zpow_add_sub (e + 53) 53 e (by ring)]
      rfl
    have hmiddle : (2 : ℚ) ^ (e - 1) = 1 / 2 * 2 ^ e := by
      rw [two_zpow_add_sub (e - 1) (-1) e (by ring)]
      norm_num
    rw [hpower, hmiddle, ← sub_mul, mul_le_mul_iff_left₀ hpos, ← le_div_iff₀ hpos,
      ← two_pow_le_iff hm htie]
    exact_mod_cast Iff.rfl
  · -- the number is as large as the power
    have hlarge : (2 : ℚ) ^ (e + 52) ≤ v := hlower.resolve_left (hk.trans_lt hgt).ne'
    have hmantissa : 2 ^ 52 ≤ m := by
      refine le_of_abs_sub_le_half ?_ hm
      rw [le_div_iff₀ hpos]
      refine le_trans (le_of_eq ?_) hlarge
      rw [two_zpow_add_sub (e + 52) 52 e (by ring)]
      norm_num
    have hpower : (2 : ℚ) ^ (k + 53) ≤ 2 ^ (e + 52) := zpow_le_zpow_right₀ one_le_two (by omega)
    have hunit : (0 : ℚ) < 2 ^ (k - 1) := by positivity
    refine iff_of_true ?_ (by linarith)
    calc (2 : ℚ) ^ (k + 53) ≤ 2 ^ (e + 52) := hpower
      _ = 2 ^ (52 : Int) * 2 ^ e := two_zpow_add_sub _ _ _ (by ring)
      _ ≤ m * 2 ^ e := by
          gcongr
          exact_mod_cast hmantissa

/-- A rounded number does not fit if it is the power of two behind the greatest exponent. -/
theorem over_iff (hupper : m ≤ 2 ^ 53) (hlower : e = minExponent ∨ 2 ^ 52 ≤ m) :
    maxExponent < e ∨ e = maxExponent ∧ m = 2 ^ 53 ↔ (2 : ℚ) ^ (maxExponent + 53) ≤ m * 2 ^ e := by
  have hcast : (m : ℚ) ≤ 2 ^ (53 : Int) := by exact_mod_cast hupper
  rcases lt_trichotomy e maxExponent with hlt | rfl | hgt
  · refine iff_of_false (by omega) (not_le.mpr ?_)
    calc (m : ℚ) * 2 ^ e ≤ 2 ^ (53 : Int) * 2 ^ e := by gcongr
      _ = 2 ^ (53 + e) := (two_zpow_add_sub _ _ _ rfl).symm
      _ < 2 ^ (maxExponent + 53) := zpow_lt_zpow_right₀ one_lt_two (by omega)
  · have hpos : (0 : ℚ) < 2 ^ maxExponent := by positivity
    rw [two_zpow_add_sub (maxExponent + 53) 53 maxExponent (by ring), mul_le_mul_iff_left₀ hpos]
    have hiff : (2 : ℚ) ^ (53 : Int) ≤ m ↔ 2 ^ 53 ≤ m := by exact_mod_cast Iff.rfl
    rw [hiff]
    omega
  · have hmantissa := hlower.resolve_left (lt_trans (by decide) hgt).ne'
    refine iff_of_true (.inl hgt) ?_
    calc (2 : ℚ) ^ (maxExponent + 53) ≤ 2 ^ (52 + e) := zpow_le_zpow_right₀ one_le_two (by omega)
      _ = 2 ^ (52 : Int) * 2 ^ e := two_zpow_add_sub _ _ _ rfl
      _ ≤ m * 2 ^ e := by
          gcongr
          exact_mod_cast hmantissa

end

/-! ## Too large a number -/

section

variable {num den n : Nat} {x : Binary64}

theorem zero_lt_middle (k : Int) : (0 : ℚ) < 2 ^ (k + 53) - 2 ^ (k - 1) :=
  sub_pos.mpr (zpow_lt_zpow_right₀ one_lt_two (by omega))

theorem mantissa_lower {v : ℚ} {m : Nat} {e : Int}
    (hlower : e = minExponent ∨ (2 : ℚ) ^ (e + 52) ≤ v) (hm : |v / 2 ^ e - m| ≤ 1 / 2) :
    e = minExponent ∨ 2 ^ 52 ≤ m := by
  refine (div_two_zpow hlower).imp_right fun h => le_of_abs_sub_le_half ?_ hm
  exact_mod_cast h

/-- A quotient is too large from the middle on below the power of two behind the greatest
exponent. -/
theorem ofRatio?_eq_none_iff (hden : 0 < den) :
    ofRatio? num den = none ↔ (overflow : ℚ) ≤ num / den := by
  rw [cast_overflow]
  rcases Nat.eq_zero_or_pos num with rfl | hnum
  · refine iff_of_false (by simp [ofRatio?]) (not_le.mpr ?_)
    rw [Nat.cast_zero, zero_div]
    exact zero_lt_middle 971
  · obtain ⟨-, hupper, hlower⟩ := exponentOf_spec hnum hden
    obtain ⟨m, hx, hm, htie⟩ := ofRatio?_eq hnum hden
    have hover := over_iff (le_two_pow_of_le_half hupper hm) (mantissa_lower hlower hm)
    rw [hx, ← two_zpow_le_iff (k := 971) (by decide) hupper hlower hm htie]
    split
    case isTrue h => exact iff_of_true rfl (hover.mp h)
    case isFalse h => exact iff_of_false (by simp) (mt hover.mpr h)

/-- A quotient is rounded up to a power of two from the middle below that power on. -/
theorem two_zpow_le_value_iff (hden : 0 < den) (h : ofRatio? num den = some x) {k : Int}
    (hk : minExponent ≤ k) :
    (2 : ℚ) ^ (k + 53) ≤ x.value ↔ (2 : ℚ) ^ (k + 53) - 2 ^ (k - 1) ≤ num / den := by
  rcases Nat.eq_zero_or_pos num with rfl | hnum
  · obtain rfl : (⟨0, 0⟩ : Binary64) = x := Option.some.inj h
    have hpos : (0 : ℚ) < 2 ^ (k + 53) := by positivity
    rw [Nat.cast_zero, zero_div]
    exact iff_of_false (not_le.mpr (by simpa [value] using hpos)) (not_le.mpr (zero_lt_middle k))
  · obtain ⟨-, hupper, hlower⟩ := exponentOf_spec hnum hden
    obtain ⟨m, hx, hm, htie⟩ := ofRatio?_eq hnum hden
    rw [hx] at h
    split at h
    case isTrue => cases h
    case isFalse =>
      obtain rfl := Option.some.inj h
      exact two_zpow_le_iff hk hupper hlower hm htie

/-- Sixteen times a value is compared with a power of two in whole numbers. -/
theorem two_pow_le_timesSixteen_iff {k : Nat} (hk : 53 < k) (hx : x.mantissa ≤ 2 ^ 53) :
    Nat.pow 2 k ≤ x.mantissa * Nat.pow 2 (x.exponent + 4).toNat ↔
      (2 : ℚ) ^ (k : Int) ≤ x.value * 2 ^ (4 : Int) := by
  have hsixteen : x.value * 2 ^ (4 : Int) = x.mantissa * 2 ^ (x.exponent + 4) := by
    rw [value, zpow_add₀ two_ne_zero, mul_assoc]
  rw [hsixteen]
  rcases le_or_gt 0 (x.exponent + 4) with h | h
  · have hwhole : (x.mantissa : ℚ) * 2 ^ (x.exponent + 4)
        = (x.mantissa * Nat.pow 2 (x.exponent + 4).toNat : Nat) := by
      rw [Nat.cast_mul, cast_two_pow, Int.toNat_of_nonneg h]
    rw [hwhole, ← cast_two_pow, Nat.cast_le]
  · -- the exponent is so small that neither of the two numbers is large
    have hlarge : 2 ^ 53 < 2 ^ k := Nat.pow_lt_pow_right Nat.one_lt_two hk
    have hpow : (2 : ℚ) ^ (x.exponent + 4) ≤ 1 := zpow_le_one_of_nonpos₀ one_le_two h.le
    refine iff_of_false ?_ (not_le.mpr ?_)
    · rw [Int.toNat_of_nonpos h.le, Nat.pow_eq, Nat.pow_eq, pow_zero, Nat.mul_one, not_le]
      exact hx.trans_lt hlarge
    · calc (x.mantissa : ℚ) * 2 ^ (x.exponent + 4) ≤ x.mantissa * 1 :=
            mul_le_mul_of_nonneg_left hpow (Nat.cast_nonneg _)
        _ < 2 ^ (k : Int) := by
            rw [mul_one]
            exact_mod_cast hx.trans_lt hlarge

/-- Sixteen times a value is too large from the power of two behind the greatest exponent on. -/
theorem timesSixteen?_eq_none_iff (hx : x.mantissa ≤ 2 ^ 53) :
    x.timesSixteen? = none ↔ (2 : ℚ) ^ ((1024 : Nat) : Int) ≤ x.value * 2 ^ (4 : Int) := by
  have hlt : 53 < 1024 := by decide
  rw [timesSixteen?]
  generalize 1024 = k at hlt ⊢
  rw [← two_pow_le_timesSixteen_iff hlt hx]
  split
  case isTrue h => exact iff_of_true rfl h
  case isFalse h => exact iff_of_false (by simp) h

/-- A product of a quotient by sixteen is too large if the exact product is. -/
theorem bind_timesSixteen?_eq_none_iff (hden : 0 < den) :
    (ofRatio? num den).bind timesSixteen? = none ↔ (overflow : ℚ) ≤ num / den * 16 := by
  have hscaled : (overflow : ℚ) ≤ num / den * 16 ↔
      (2 : ℚ) ^ (967 + 53 : Int) - 2 ^ (967 - 1 : Int) ≤ num / den := by
    have hpos : (0 : ℚ) < 2 ^ (4 : Int) := by positivity
    have hsixteen : (16 : ℚ) = 2 ^ (4 : Int) := by norm_num
    have hmiddle : (overflow : ℚ)
        = (2 ^ (967 + 53 : Int) - 2 ^ (967 - 1 : Int)) * 2 ^ (4 : Int) := by
      rw [cast_overflow, sub_mul, ← zpow_add₀ two_ne_zero, ← zpow_add₀ two_ne_zero]
      rfl
    rw [hmiddle, hsixteen, mul_le_mul_iff_left₀ hpos]
  rw [hscaled]
  cases h : ofRatio? num den with
  | none =>
      refine iff_of_true rfl (hscaled.mp (((ofRatio?_eq_none_iff hden).mp h).trans ?_))
      have hnonneg : (0 : ℚ) ≤ num / den := by positivity
      linarith
  | some x =>
      have hpos : (0 : ℚ) < 2 ^ (4 : Int) := by positivity
      have hlimit : (2 : ℚ) ^ ((1024 : Nat) : Int) = 2 ^ (967 + 53 : Int) * 2 ^ (4 : Int) :=
        two_zpow_add_sub _ _ _ (by norm_num)
      rw [Option.bind_some, timesSixteen?_eq_none_iff (mantissa_le_of_ofRatio? hden h), hlimit,
        mul_le_mul_iff_left₀ hpos, two_zpow_le_value_iff hden h (by decide)]

/-! ## Whole numbers -/

/-- A whole number is rounded to a whole number. -/
theorem exists_value_of_ofNat? (h : ofNat? n = some x) : ∃ k : Nat, x.value = k := by
  have hnear : Nearest n x.value := by
    simpa using nearest_of_ofRatio? Nat.one_pos h
  by_cases hn : n < 2 ^ 53
  · -- the number is a value of the format, and so the nearest one
    have hself : IsBinary64 n := ⟨n, 0, hn, by decide, by decide, by simp⟩
    have hle := hnear.le n hself
    rw [sub_self, abs_zero] at hle
    exact ⟨n, (sub_eq_zero.mp (abs_nonpos_iff.mp hle)).symm⟩
  · have hpos : 0 < n := by omega
    obtain ⟨-, hupper, -⟩ := exponentOf_spec hpos Nat.one_pos
    have hexponent : 0 ≤ exponentOf n 1 := by
      have hlarge : (2 : ℚ) ^ (53 : Int) ≤ n := by exact_mod_cast not_lt.mp hn
      rw [Nat.cast_one, div_one] at hupper
      have := (zpow_lt_zpow_iff_right₀ (one_lt_two (α := ℚ))).mp (hlarge.trans_lt hupper)
      omega
    obtain ⟨m, hx, -, -⟩ := ofRatio?_eq hpos Nat.one_pos
    rw [ofNat?, hx] at h
    split at h
    case isTrue => cases h
    case isFalse =>
      obtain rfl := Option.some.inj h
      exact ⟨_, value_eq_of_nonneg hexponent⟩

end

end DesignTokens.Number.Binary64
