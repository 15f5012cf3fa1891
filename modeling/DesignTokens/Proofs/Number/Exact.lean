import DesignTokens.Number.Binary64

/-!
# Whole numbers in binary floating point

A whole number that has no more binary digits than a mantissa is held exactly:
it is the value nearest to itself, and it is read back (`toNat?_ofNat`).
-/

namespace DesignTokens.Number

theorem roundHalfEven_one (n : Nat) : roundHalfEven n 1 = n := by
  simp [roundHalfEven, Nat.mod_one]

namespace Binary64

/-- The exponent of a whole number makes the place of its first digit that of a mantissa. -/
theorem exponentOf_one {n : Nat} (hn : n ≠ 0) (hlog : n.log2 ≤ 52) :
    exponentOf n 1 = (n.log2 : Int) - 52 := by
  have hbelow : ¬n < 1 * Nat.pow 2 (n.log2 - 0) := by
    have hself := Nat.log2_self_le hn
    rw [Nat.one_mul, Nat.sub_zero, Nat.pow_eq]
    omega
  have hlog1 : Nat.log2 1 = 0 := by decide
  simp only [exponentOf, hlog1, Nat.zero_le, if_true, hbelow, decide_false, Bool.false_eq_true,
    if_false, minExponent]
  omega

/-- A whole number of at most 53 binary digits is held exactly. -/
theorem toNat?_ofNat {n : Nat} (h : n < Nat.pow 2 53) : (ofNat? n).bind toNat? = some n := by
  by_cases hn : n = 0
  · subst hn
    decide
  · have hlog : n.log2 ≤ 52 := by
      have := (Nat.log2_lt hn).mpr h
      omega
    obtain ⟨k, hk⟩ := Nat.exists_eq_add_of_le hlog
    have hexponent : exponentOf n 1 = -(k : Int) := by
      rw [exponentOf_one hn hlog]
      omega
    have hfits : ∀ m : Nat,
        ¬(maxExponent < -(k : Int) ∨ (-(k : Int) = maxExponent ∧ m = Nat.pow 2 53)) := by
      intro m
      rw [maxExponent]
      omega
    rw [ofNat?, ofRatio?, if_neg hn]
    dsimp only
    rw [hexponent, if_neg (hfits _), Option.bind_some, toNat?]
    cases k with
    | zero => simp [roundHalfEven_one]
    | succ k =>
        have hneg : ¬(0 : Int) ≤ -((k + 1 : Nat) : Int) := by omega
        have hscale : 0 < Nat.pow 2 (k + 1) := Nat.two_pow_pos _
        simp only [hneg, if_false, Int.neg_neg, Int.toNat_natCast, roundHalfEven_one,
          Nat.mul_mod_left, if_true, Nat.mul_div_cancel _ hscale]

end Binary64

end DesignTokens.Number
