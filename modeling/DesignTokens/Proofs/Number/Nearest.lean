import Mathlib.Algebra.Order.Field.Power
import Mathlib.Algebra.Order.Round
import Mathlib.Tactic.FieldSimp
import Mathlib.Tactic.Linarith
import Mathlib.Tactic.NormNum
import Mathlib.Tactic.Positivity
import Mathlib.Tactic.Ring
import DesignTokens.Number.Binary64

/-!
# Rounding to the nearest value

A quotient is rounded to a value of the format that none is nearer to
(`nearest_of_ofRatio?`). Of two that are equally near, the rounding takes the one
with the even mantissa, so a value with a binary digit to spare is taken whenever
none is nearer (`ofRatio?_eq_of_nearest`). A product by sixteen is not rounded,
and a value is read as the whole number that it is (`toNat?_eq_some_iff`).
-/

namespace DesignTokens.Number

/-! ## Values of the format -/

/-- The number that a binary64 value stands for. -/
def Binary64.value (x : Binary64) : ℚ := x.mantissa * 2 ^ x.exponent

/-- The number is a value of the format. -/
def IsBinary64 (w : ℚ) : Prop :=
  ∃ (m : Nat) (e : Int), m < 2 ^ 53 ∧ Binary64.minExponent ≤ e ∧ e ≤ Binary64.maxExponent ∧
    w = m * 2 ^ e

/-- The second number is a value of the format, and none is nearer to the first. -/
structure Nearest (v w : ℚ) : Prop where
  isBinary64 : IsBinary64 w
  le : ∀ u, IsBinary64 u → |v - w| ≤ |v - u|

/-! ## Rounding to whole numbers -/

/-- The rounded quotient is half a unit off at most, and even if it is as much as that. -/
theorem roundHalfEven_spec (num : Nat) {den : Nat} (hden : 0 < den) :
    |(num / den : ℚ) - roundHalfEven num den| ≤ 1 / 2 ∧
      (|(num / den : ℚ) - roundHalfEven num den| = 1 / 2 → Even (roundHalfEven num den)) := by
  have hsplit : (num : ℚ) / den = (num / den : Nat) + (num % den : Nat) / den := by
    have hden' : (den : ℚ) ≠ 0 := by positivity
    field_simp
    exact_mod_cast (Nat.div_add_mod num den).symm
  have hden' : (0 : ℚ) < den := by exact_mod_cast hden
  have hlt : ((num % den : Nat) : ℚ) / den < 1 := by
    rw [div_lt_one hden']
    exact_mod_cast Nat.mod_lt num hden
  have hnonneg : 0 ≤ ((num % den : Nat) : ℚ) / den := by positivity
  rw [hsplit, roundHalfEven]
  split
  case isTrue hbelow =>
    have hbelow : ((num % den : Nat) : ℚ) / den < 1 / 2 := by
      rw [div_lt_iff₀ hden']
      have : (2 * (num % den : Nat) : ℚ) < den := by exact_mod_cast hbelow
      linarith
    rw [add_sub_cancel_left, abs_of_nonneg hnonneg]
    exact ⟨hbelow.le, fun h => absurd h hbelow.ne⟩
  case isFalse hbelow =>
    split
    case isTrue habove =>
      have habove : 1 / 2 < ((num % den : Nat) : ℚ) / den := by
        rw [lt_div_iff₀ hden']
        have : (den : ℚ) < (2 * (num % den : Nat) : ℚ) := by exact_mod_cast habove
        linarith
      have habs : |((num / den : Nat) : ℚ) + (num % den : Nat) / den - (num / den + 1 : Nat)|
          = 1 - ((num % den : Nat) : ℚ) / den := by
        rw [Nat.cast_add, Nat.cast_one, abs_of_nonpos (by linarith)]
        ring
      rw [habs]
      exact ⟨by linarith, fun h => by linarith⟩
    case isFalse habove =>
      have htie : ((num % den : Nat) : ℚ) / den = 1 / 2 := by
        rw [div_eq_iff hden'.ne']
        have : (2 * (num % den : Nat) : ℚ) = den := by
          exact_mod_cast Nat.le_antisymm (not_lt.mp habove) (not_lt.mp hbelow)
        linarith
      rw [htie]
      split
      case isTrue heven =>
        rw [add_sub_cancel_left, abs_of_nonneg (by norm_num)]
        exact ⟨le_rfl, fun _ => Nat.even_iff.mpr heven⟩
      case isFalse hodd =>
        rw [Nat.cast_add, Nat.cast_one, add_sub_add_left_eq_sub]
        refine ⟨by norm_num [abs_of_neg], fun _ => ?_⟩
        rw [Nat.even_add_one, Nat.even_iff]
        exact hodd

/-- No whole number is nearer than the rounded one. -/
theorem abs_sub_le_of_le_half {v : ℚ} {m : Nat} (h : |v - m| ≤ 1 / 2) (k : Nat) :
    |v - m| ≤ |v - k| := by
  rcases eq_or_ne m k with rfl | hne
  · exact le_rfl
  · have hdist : (1 : ℚ) ≤ |(m : ℚ) - k| := by
      have : (1 : ℤ) ≤ |(m : ℤ) - k| := Int.one_le_abs (sub_ne_zero.mpr (by exact_mod_cast hne))
      exact_mod_cast this
    have htri : |(m : ℚ) - k| ≤ |v - m| + |v - k| := by
      rw [abs_sub_comm v m]
      exact abs_sub_le _ _ _
    linarith

/-! ## The exponent of a quotient -/

theorem two_zpow_log2_le {n : Nat} (hn : 0 < n) : (2 : ℚ) ^ (n.log2 : ℤ) ≤ n := by
  rw [zpow_natCast]
  exact_mod_cast Nat.log2_self_le hn.ne'

theorem lt_two_zpow_log2 (n : Nat) : (n : ℚ) < 2 ^ ((n.log2 : ℤ) + 1) := by
  rw [← Nat.cast_succ, zpow_natCast]
  exact_mod_cast Nat.lt_log2_self

/-- The quotient of the first binary digits tells the quotient up to a factor of two. -/
theorem div_between {num den : Nat} (hnum : 0 < num) (hden : 0 < den) :
    (2 : ℚ) ^ ((num.log2 : ℤ) - den.log2 - 1) ≤ num / den ∧
      (num / den : ℚ) < 2 ^ ((num.log2 : ℤ) - den.log2 + 1) := by
  have htwo : (2 : ℚ) ≠ 0 := two_ne_zero
  have hden' : (0 : ℚ) < den := by exact_mod_cast hden
  constructor
  · rw [le_div_iff₀ hden']
    calc (2 : ℚ) ^ ((num.log2 : ℤ) - den.log2 - 1) * den
        ≤ 2 ^ ((num.log2 : ℤ) - den.log2 - 1) * 2 ^ ((den.log2 : ℤ) + 1) := by
          gcongr
          exact (lt_two_zpow_log2 den).le
      _ = 2 ^ (num.log2 : ℤ) := by rw [← zpow_add₀ htwo]; congr 1; ring
      _ ≤ num := two_zpow_log2_le hnum
  · rw [div_lt_iff₀ hden']
    calc (num : ℚ) < 2 ^ ((num.log2 : ℤ) + 1) := lt_two_zpow_log2 num
      _ = 2 ^ ((num.log2 : ℤ) - den.log2 + 1) * 2 ^ (den.log2 : ℤ) := by
          rw [← zpow_add₀ htwo]; congr 1; ring
      _ ≤ 2 ^ ((num.log2 : ℤ) - den.log2 + 1) * den := by
          gcongr
          exact two_zpow_log2_le hden

/-- The comparison with the power of two is made in whole numbers. -/
theorem below_iff (num : Nat) {den : Nat} (hden : 0 < den) :
    (if den.log2 ≤ num.log2 then decide (num < den * Nat.pow 2 (num.log2 - den.log2))
      else decide (num * Nat.pow 2 (den.log2 - num.log2) < den)) = true ↔
      (num / den : ℚ) < 2 ^ ((num.log2 : ℤ) - den.log2) := by
  have hden' : (0 : ℚ) < den := by exact_mod_cast hden
  rw [div_lt_iff₀ hden']
  split
  case isTrue hle =>
    have hpow : (2 : ℚ) ^ ((num.log2 : ℤ) - den.log2) = (2 : ℚ) ^ (num.log2 - den.log2) := by
      rw [← zpow_natCast, Nat.cast_sub hle]
    rw [hpow, decide_eq_true_iff, mul_comm (2 ^ _ : ℚ), Nat.pow_eq]
    norm_cast
  case isFalse hle =>
    have hpow : (2 : ℚ) ^ ((num.log2 : ℤ) - den.log2)
        = ((2 : ℚ) ^ (den.log2 - num.log2))⁻¹ := by
      rw [← zpow_natCast, ← zpow_neg, Nat.cast_sub (not_le.mp hle).le, neg_sub]
    have hpos : (0 : ℚ) < 2 ^ (den.log2 - num.log2) := by positivity
    rw [hpow, decide_eq_true_iff, inv_mul_eq_div, lt_div_iff₀ hpos, Nat.pow_eq]
    norm_cast

/-- The quotient has 53 binary digits before the point at most, and just as many unless the exponent
is the least one. -/
theorem exponentOf_spec {num den : Nat} (hnum : 0 < num) (hden : 0 < den) :
    Binary64.minExponent ≤ Binary64.exponentOf num den ∧
      (num / den : ℚ) < 2 ^ (Binary64.exponentOf num den + 53) ∧
      (Binary64.exponentOf num den = Binary64.minExponent ∨
        (2 : ℚ) ^ (Binary64.exponentOf num den + 52) ≤ num / den) := by
  obtain ⟨hlow, hhigh⟩ := div_between hnum hden
  have hbelow := below_iff num hden
  rw [Binary64.exponentOf]
  generalize (if den.log2 ≤ num.log2 then decide (num < den * Nat.pow 2 (num.log2 - den.log2))
      else decide (num * Nat.pow 2 (den.log2 - num.log2) < den)) = below at hbelow ⊢
  generalize (num.log2 : ℤ) - den.log2 = k at *
  -- the exponent before it is raised to the least one
  obtain ⟨e, he, hfit⟩ : ∃ e, (k - if below = true then 53 else 52) = e ∧
      (2 : ℚ) ^ (e + 52) ≤ num / den ∧ (num / den : ℚ) < 2 ^ (e + 53) := by
    refine ⟨_, rfl, ?_⟩
    cases below with
    | true =>
        have h := hbelow.mp rfl
        rw [if_pos rfl, sub_add_cancel, show k - 53 + 52 = k - 1 by ring]
        exact ⟨hlow, h⟩
    | false =>
        have h := mt hbelow.mpr Bool.false_ne_true
        rw [if_neg Bool.false_ne_true, sub_add_cancel, show k - 52 + 53 = k + 1 by ring]
        exact ⟨not_lt.mp h, hhigh⟩
  rw [he]
  refine ⟨le_max_right .., hfit.2.trans_le ?_, ?_⟩
  · exact zpow_le_zpow_right₀ one_le_two (by have := le_max_left e Binary64.minExponent; omega)
  · rcases le_total e Binary64.minExponent with h | h
    · exact .inl (max_eq_right h)
    · exact .inr (by rw [max_eq_left h]; exact hfit.1)

/-! ## The nearest value -/

namespace Binary64

/-- A quotient is measured in units of its exponent and rounded to a whole number of them. -/
theorem ofRatio?_eq {num den : Nat} (hnum : 0 < num) (hden : 0 < den) :
    ∃ m : Nat, ofRatio? num den
        = (if maxExponent < exponentOf num den ∨ exponentOf num den = maxExponent ∧ m = 2 ^ 53
          then none else some ⟨m, exponentOf num den⟩) ∧
      |(num / den : ℚ) / 2 ^ exponentOf num den - m| ≤ 1 / 2 ∧
      (|(num / den : ℚ) / 2 ^ exponentOf num den - m| = 1 / 2 → Even m) := by
  rw [ofRatio?, if_neg hnum.ne']
  dsimp only
  generalize exponentOf num den = e
  split
  case isTrue he =>
    refine ⟨_, rfl, ?_⟩
    have hscaled : (num / den : ℚ) / 2 ^ e = num / (den * Nat.pow 2 e.toNat : Nat) := by
      rw [Nat.pow_eq, Nat.cast_mul, Nat.cast_pow, Nat.cast_two, ← zpow_natCast,
        Int.toNat_of_nonneg he,
        div_div]
    rw [hscaled]
    exact roundHalfEven_spec num (Nat.mul_pos hden (Nat.two_pow_pos _))
  case isFalse he =>
    refine ⟨_, rfl, ?_⟩
    have hscaled : (num / den : ℚ) / 2 ^ e = (num * Nat.pow 2 (-e).toNat : Nat) / den := by
      rw [Nat.pow_eq, Nat.cast_mul, Nat.cast_pow, Nat.cast_two, ← zpow_natCast,
        Int.toNat_of_nonneg (by omega), zpow_neg, ← div_eq_mul_inv, div_right_comm]
    rw [hscaled]
    exact roundHalfEven_spec _ hden

end Binary64

section

variable {v u : ℚ} {m : Nat} {e : Int}

/-- Distances are measured in units of an exponent. -/
theorem abs_sub_le_iff_scaled (e : Int) (v w u : ℚ) :
    |v - w| ≤ |v - u| ↔ |v / 2 ^ e - w / 2 ^ e| ≤ |v / 2 ^ e - u / 2 ^ e| := by
  have hpos : (0 : ℚ) < 2 ^ e := by positivity
  rw [← sub_div, ← sub_div, abs_div, abs_div, abs_of_pos hpos, div_le_div_iff_of_pos_right hpos]

/-- A value of the format is a whole number of units, or it has more than 53 digits less. -/
theorem exists_nat_of_isBinary64 (h : IsBinary64 u) (e : Int) :
    (∃ k : Nat, u / 2 ^ e = k) ∨ Binary64.minExponent < e ∧ u / 2 ^ e < 2 ^ 52 := by
  obtain ⟨k, f, hk, hf, -, rfl⟩ := h
  have htwo : (2 : ℚ) ≠ 0 := two_ne_zero
  rw [mul_div_assoc, ← zpow_sub₀ htwo]
  rcases le_or_gt e f with hle | hlt
  · refine .inl ⟨k * 2 ^ (f - e).toNat, ?_⟩
    rw [Nat.cast_mul, Nat.cast_pow, Nat.cast_two, ← zpow_natCast, Int.toNat_of_nonneg (by omega)]
  · refine .inr ⟨hf.trans_lt hlt, ?_⟩
    calc (k : ℚ) * 2 ^ (f - e) < 2 ^ (53 : ℤ) * 2 ^ (f - e) := by
          gcongr
          exact_mod_cast hk
      _ = 2 ^ (53 + (f - e)) := (zpow_add₀ htwo _ _).symm
      _ ≤ 2 ^ (52 : ℤ) := zpow_le_zpow_right₀ one_le_two (by omega)

theorem div_two_zpow (hlower : e = Binary64.minExponent ∨ (2 : ℚ) ^ (e + 52) ≤ v) :
    e = Binary64.minExponent ∨ 2 ^ 52 ≤ v / 2 ^ e := by
  refine hlower.imp_right fun h => ?_
  rwa [le_div_iff₀ (by positivity), ← zpow_natCast, ← zpow_add₀ two_ne_zero, add_comm]

theorem div_two_zpow_lt (hupper : v < 2 ^ (e + 53)) : v / 2 ^ e < 2 ^ 53 := by
  rwa [div_lt_iff₀ (by positivity), ← zpow_natCast, ← zpow_add₀ two_ne_zero, add_comm]

/-- A quotient below the next power of two is rounded to that power at most. -/
theorem le_two_pow_of_le_half (hupper : v < 2 ^ (e + 53)) (hm : |v / 2 ^ e - m| ≤ 1 / 2) :
    m ≤ 2 ^ 53 := by
  have hsmall := div_two_zpow_lt hupper
  have habove := (abs_le.mp hm).1
  have hlt : (m : ℚ) < (2 ^ 53 + 1 : Nat) := by
    push_cast
    linarith
  exact Nat.lt_succ_iff.mp (by exact_mod_cast hlt)

/-- A quotient that is rounded to a whole number of units of its exponent is rounded to the nearest
value of the format. -/
theorem nearest_of_le_half (he : Binary64.minExponent ≤ e)
    (hfits : ¬(Binary64.maxExponent < e ∨ e = Binary64.maxExponent ∧ m = 2 ^ 53))
    (hupper : v < 2 ^ (e + 53)) (hlower : e = Binary64.minExponent ∨ (2 : ℚ) ^ (e + 52) ≤ v)
    (hm : |v / 2 ^ e - m| ≤ 1 / 2) : Nearest v (m * 2 ^ e) where
  isBinary64 := by
    rw [not_or, not_lt] at hfits
    rcases (le_two_pow_of_le_half hupper hm).lt_or_eq with hlt | rfl
    · exact ⟨m, e, hlt, he, hfits.1, rfl⟩
    · refine ⟨2 ^ 52, e + 1, by norm_num, by omega, ?_, ?_⟩
      · have := fun h => hfits.2 ⟨h, rfl⟩
        have := hfits.1
        omega
      · rw [zpow_add₀ two_ne_zero, zpow_one]
        push_cast
        ring
  le := by
    intro u hu
    rw [abs_sub_le_iff_scaled e, mul_div_cancel_right₀ _ (by positivity)]
    rcases exists_nat_of_isBinary64 hu e with ⟨k, hk⟩ | ⟨hlt, hsmall⟩
    · rw [hk]
      exact abs_sub_le_of_le_half hm k
    · have hlarge := (div_two_zpow hlower).resolve_left hlt.ne'
      have hunit := abs_sub_le_of_le_half hm (2 ^ 52)
      rw [Nat.cast_pow, Nat.cast_ofNat, abs_of_nonneg (sub_nonneg.mpr hlarge)] at hunit
      exact hunit.trans ((sub_le_sub_left hsmall.le _).trans (le_abs_self _))

/-- Of two whole numbers of units that are equally near, one is even and the other is odd. -/
theorem odd_of_tie {k : Nat} (hm : |v - m| ≤ 1 / 2) (htie : |v - m| = 1 / 2 → Even m)
    (hk : |v - k| = |v - m|) (hne : k ≠ m) : Odd k := by
  have hdist : |(k : ℚ) - m| ≤ 1 := by
    have htri : |(k : ℚ) - m| ≤ |v - k| + |v - m| := by
      rw [abs_sub_comm v k]
      exact abs_sub_le _ _ _
    linarith
  have hone : |(k : ℤ) - m| = 1 :=
    le_antisymm (by exact_mod_cast hdist)
      (Int.one_le_abs (sub_ne_zero.mpr (by exact_mod_cast hne)))
  have heven : Even m := by
    refine htie (le_antisymm hm ?_)
    have hone' : |(k : ℚ) - m| = 1 := by exact_mod_cast hone
    have htri : |(k : ℚ) - m| ≤ |v - k| + |v - m| := by
      rw [abs_sub_comm v k]
      exact abs_sub_le _ _ _
    linarith
  obtain ⟨c, rfl⟩ := heven
  rw [Nat.odd_iff]
  rcases (abs_eq one_pos.le).mp hone with h | h <;> omega

/-- An odd number of units that is as large as a mantissa is no number with fewer digits. -/
theorem lt_of_odd_eq {k k' : Nat} {j : Int} (hodd : Odd k') (heq : (k : ℚ) * 2 ^ j = k' * 2 ^ e) :
    j ≤ e ∧ k' ≤ k := by
  have htwo : (2 : ℚ) ≠ 0 := two_ne_zero
  rcases le_or_gt j e with hle | hlt
  · refine ⟨hle, ?_⟩
    have hk : k = k' * 2 ^ (e - j).toNat := by
      have : (k : ℚ) = k' * 2 ^ (e - j) := by
        rw [zpow_sub₀ htwo, ← mul_div_assoc, ← heq, mul_div_cancel_right₀ _ (by positivity)]
      rw [← Int.toNat_of_nonneg (show 0 ≤ e - j by omega), zpow_natCast] at this
      exact_mod_cast this
    exact hk ▸ Nat.le_mul_of_pos_right _ (Nat.two_pow_pos _)
  · have hk' : k' = k * 2 ^ (j - e).toNat := by
      have : (k' : ℚ) = k * 2 ^ (j - e) := by
        rw [zpow_sub₀ htwo, ← mul_div_assoc, heq, mul_div_cancel_right₀ _ (by positivity)]
      rw [← Int.toNat_of_nonneg (show 0 ≤ j - e by omega), zpow_natCast] at this
      exact_mod_cast this
    have heven : Even k' := hk' ▸ (Nat.even_pow.mpr ⟨even_two, by omega⟩).mul_left k
    exact absurd heven (Nat.not_even_iff_odd.mpr hodd)

end

namespace Binary64

variable {num den : Nat}

/-- The value that a quotient is rounded to is the nearest one. -/
theorem nearest_of_ofRatio? (hden : 0 < den) {x : Binary64} (h : ofRatio? num den = some x) :
    Nearest (num / den) x.value := by
  rcases Nat.eq_zero_or_pos num with rfl | hnum
  · obtain rfl : (⟨0, 0⟩ : Binary64) = x := Option.some.inj h
    have hzero : (⟨0, 0⟩ : Binary64).value = 0 := by simp [value]
    rw [Nat.cast_zero, zero_div, hzero]
    refine ⟨⟨0, 0, by norm_num, by decide, by decide, by simp⟩, fun u _ => ?_⟩
    rw [sub_self, abs_zero]
    exact abs_nonneg _
  · obtain ⟨he, hupper, hlower⟩ := exponentOf_spec hnum hden
    obtain ⟨m, hx, hm, -⟩ := ofRatio?_eq hnum hden
    rw [hx] at h
    split at h
    case isTrue => cases h
    case isFalse hfits =>
      obtain rfl := Option.some.inj h
      exact nearest_of_le_half he hfits hupper hlower hm

theorem mantissa_le_of_ofRatio? (hden : 0 < den) {x : Binary64} (h : ofRatio? num den = some x) :
    x.mantissa ≤ 2 ^ 53 := by
  rcases Nat.eq_zero_or_pos num with rfl | hnum
  · obtain rfl : (⟨0, 0⟩ : Binary64) = x := Option.some.inj h
    exact Nat.zero_le _
  · obtain ⟨m, hx, hm, -⟩ := ofRatio?_eq hnum hden
    rw [hx] at h
    split at h
    case isTrue => cases h
    case isFalse =>
      obtain rfl := Option.some.inj h
      exact le_two_pow_of_le_half (exponentOf_spec hnum hden).2.1 hm

/-- Of a number far above all whole numbers of 52 digits, none of these is the nearest value. -/
theorem not_nearest_of_large {v : ℚ} {k : Nat} {j : Int} (hk : k < 2 ^ 52) (hj : j ≤ 0)
    (hv : 2 ^ 53 ≤ v) : ¬Nearest v (k * 2 ^ j) := by
  intro h
  have hsmall : (k : ℚ) * 2 ^ j < 2 ^ 53 := by
    calc (k : ℚ) * 2 ^ j ≤ k * 1 := by
          gcongr
          exact zpow_le_one_of_nonpos₀ one_le_two hj
      _ < 2 ^ 53 := by
          rw [mul_one]
          exact_mod_cast hk.trans (by norm_num)
  have hother := h.le (2 ^ 53) ⟨2 ^ 52, 1, by norm_num, by decide, by decide, by norm_num⟩
  rw [abs_of_nonneg (sub_nonneg.mpr hv)] at hother
  have hdist := le_abs_self (v - k * 2 ^ j)
  linarith

/-- A value with so few digits that it stands at an even place among its neighbours is what a
quotient is rounded to, if none is nearer. -/
theorem ofRatio?_eq_of_nearest (hden : 0 < den) {k : Nat} {j : Int} (hk : k < 2 ^ 52)
    (hmin : minExponent < j) (hj : j ≤ 0) (h : Nearest (num / den) (k * 2 ^ j)) :
    ∃ x, ofRatio? num den = some x ∧ x.value = k * 2 ^ j := by
  rcases Nat.eq_zero_or_pos num with rfl | hnum
  · refine ⟨⟨0, 0⟩, rfl, ?_⟩
    have hle := h.le 0 ⟨0, 0, by norm_num, by decide, by decide, by simp⟩
    simp only [Nat.cast_zero, zero_div, sub_zero, abs_zero, zero_sub, abs_neg] at hle
    rw [abs_nonpos_iff.mp hle]
    simp [value]
  · obtain ⟨he, hupper, hlower⟩ := exponentOf_spec hnum hden
    obtain ⟨m, hx, hm, htie⟩ := ofRatio?_eq hnum hden
    generalize (num / den : ℚ) = v at *
    generalize exponentOf num den = e at *
    have hfits : ¬(maxExponent < e ∨ e = maxExponent ∧ m = 2 ^ 53) := by
      intro hover
      have hmax : maxExponent ≤ e := by omega
      have hlarge := hlower.resolve_left (lt_of_lt_of_le (by decide) hmax).ne'
      refine not_nearest_of_large hk hj (le_trans ?_ hlarge) h
      rw [← zpow_natCast]
      exact zpow_le_zpow_right₀ one_le_two (by rw [maxExponent] at hmax; omega)
    rw [if_neg hfits] at hx
    refine ⟨_, hx, ?_⟩
    have hnear := nearest_of_le_half he hfits hupper hlower hm
    have hsame : |v / 2 ^ e - k * 2 ^ j / 2 ^ e| = |v / 2 ^ e - m| := by
      have hpos : (0 : ℚ) < 2 ^ e := by positivity
      have hle := (abs_sub_le_iff_scaled e _ _ _).mp (h.le _ hnear.isBinary64)
      have hge := (abs_sub_le_iff_scaled e _ _ _).mp (hnear.le _ h.isBinary64)
      rw [mul_div_cancel_right₀ _ hpos.ne'] at hle hge
      exact le_antisymm hle hge
    rcases exists_nat_of_isBinary64 h.isBinary64 e with ⟨k', hk'⟩ | ⟨hlt, hless⟩
    · rw [hk'] at hsame
      have heq : (k : ℚ) * 2 ^ j = k' * 2 ^ e := (div_eq_iff (by positivity)).mp hk'
      rw [heq, value]
      dsimp only
      by_contra hne
      have hne' : k' ≠ m := by
        rintro rfl
        exact hne rfl
      obtain ⟨hje, hle⟩ := lt_of_odd_eq (odd_of_tie hm htie hsame hne') heq
      have hlarge := (div_two_zpow hlower).resolve_left (hmin.trans_le hje).ne'
      have hnear' := (abs_le.mp (hsame.trans_le hm)).2
      have hgap : (k' : ℚ) + 1 ≤ 2 ^ 52 := by
        exact_mod_cast Nat.succ_le_of_lt (hle.trans_lt hk)
      linarith
    · have hlarge := (div_two_zpow hlower).resolve_left hlt.ne'
      have hunit := abs_sub_le_of_le_half hm (2 ^ 52)
      rw [Nat.cast_pow, Nat.cast_ofNat, abs_of_nonneg (sub_nonneg.mpr hlarge), ← hsame] at hunit
      have hdist := le_abs_self (v / 2 ^ e - k * 2 ^ j / 2 ^ e)
      linarith

/-! ## Whole numbers and products -/

theorem value_eq_of_nonneg {x : Binary64} (h : 0 ≤ x.exponent) :
    x.value = (x.mantissa * 2 ^ x.exponent.toNat : Nat) := by
  rw [value, Nat.cast_mul, Nat.cast_pow, Nat.cast_two, ← zpow_natCast, Int.toNat_of_nonneg h]

theorem value_eq_of_neg {x : Binary64} (h : x.exponent < 0) :
    x.value = x.mantissa / (2 ^ (-x.exponent).toNat : Nat) := by
  rw [value, Nat.cast_pow, Nat.cast_two, ← zpow_natCast, Int.toNat_of_nonneg (by omega), zpow_neg,
    div_inv_eq_mul]

/-- A value is read as the whole number that it is. -/
theorem toNat?_eq_some_iff {x : Binary64} {n : Nat} : x.toNat? = some n ↔ x.value = n := by
  rw [toNat?]
  split
  case isTrue h =>
    rw [value_eq_of_nonneg h, Option.some_inj, Nat.cast_inj, Nat.pow_eq]
  case isFalse h =>
    have hpos : 0 < 2 ^ (-x.exponent).toNat := Nat.two_pow_pos _
    have hpos' : ((2 ^ (-x.exponent).toNat : Nat) : ℚ) ≠ 0 := by exact_mod_cast hpos.ne'
    rw [value_eq_of_neg (not_le.mp h), div_eq_iff hpos', Nat.pow_eq]
    norm_cast
    dsimp only
    generalize 2 ^ (-x.exponent).toNat = scale at hpos
    split
    case isTrue hdvd =>
      rw [Option.some_inj, Nat.div_eq_iff_eq_mul_left hpos (Nat.dvd_of_mod_eq_zero hdvd)]
    case isFalse hdvd =>
      refine iff_of_false (by simp) fun heq => hdvd ?_
      rw [heq, Nat.mul_mod_left]

theorem value_of_timesSixteen? {x y : Binary64} (h : x.timesSixteen? = some y) :
    y.value = x.value * 16 := by
  rw [timesSixteen?] at h
  split at h
  case isTrue => cases h
  case isFalse =>
    obtain rfl := Option.some.inj h
    rw [value, value, zpow_add₀ two_ne_zero, ← mul_assoc]
    norm_num

/-- Sixteen times a value is a value again, unless it is very large. -/
theorem exists_timesSixteen? {x : Binary64} (hx : x.mantissa ≤ 2 ^ 53)
    (hsmall : x.value * 16 ≤ 2 ^ 53) : ∃ y, x.timesSixteen? = some y := by
  have hle : x.mantissa * 2 ^ (x.exponent + 4).toNat ≤ 2 ^ 53 := by
    rcases le_or_gt 0 (x.exponent + 4) with h | h
    · have hvalue : x.value * 16 = (x.mantissa * 2 ^ (x.exponent + 4).toNat : Nat) := by
        rw [value, Nat.cast_mul, Nat.cast_pow, Nat.cast_two, ← zpow_natCast, Int.toNat_of_nonneg h,
          zpow_add₀ two_ne_zero]
        norm_num [mul_assoc]
      rw [hvalue] at hsmall
      exact_mod_cast hsmall
    · rwa [Int.toNat_of_nonpos h.le, pow_zero, Nat.mul_one]
  have hlt : 53 < 1024 := by decide
  rw [timesSixteen?]
  generalize 1024 = k at hlt ⊢
  exact ⟨_, if_neg (not_le.mpr (hle.trans_lt (Nat.pow_lt_pow_right Nat.one_lt_two hlt)))⟩

end Binary64

end DesignTokens.Number
