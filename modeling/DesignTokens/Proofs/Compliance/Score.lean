import Mathlib.Data.Nat.Basic
import DesignTokens.Compliance.Score

/-!
# The score in unbounded numbers

The words of a penalty stop at the greatest one, so a penalty is the capped sum
in natural numbers (`Penalty.toNat_of`). A failed category therefore costs at
least what its first finding costs, which is more than the credit for spacing
tokens gives back, and only a source without a finding gets full marks
(`score_eq_hundred_iff`).

Where a word does stop, the sum is above the cap of its penalty already, so the
penalties and the score are what unbounded numbers give (`Penalty.exact`,
`balance`). The credit opens with the first spacing finding and is worth half of
it, so the score falls there too (`exact_sub_credit_mono`). `wellScored` puts
together what holds of the score for all counts.
-/

namespace DesignTokens

namespace Score

/-! ## Words that stop at the greatest one -/

theorem toNat_narrow (n : Nat) : (narrow n).toNat = min n 4294967295 := by
  have hword : Nat.pow 2 32 = 4294967296 := rfl
  have hmax : maxWord.toNat = 4294967295 := rfl
  unfold narrow
  split
  case isTrue h =>
    rw [UInt32.toNat_ofNat_of_lt' (by rw [hword] at h; exact h)]
    omega
  case isFalse h =>
    rw [hmax]
    omega

theorem toNat_addCapped (a b : UInt32) :
    (addCapped a b).toNat = min (a.toNat + b.toNat) 4294967295 := toNat_narrow _

theorem toNat_mulCapped (a b : UInt32) :
    (mulCapped a b).toNat = min (a.toNat * b.toNat) 4294967295 := toNat_narrow _

theorem toNat_min (a b : UInt32) : (min a b).toNat = min a.toNat b.toNat := by
  change (if a ≤ b then a else b).toNat = _
  split
  case isTrue h => exact (Nat.min_eq_left (UInt32.le_iff_toNat_le.mp h)).symm
  case isFalse h =>
    have hle : b.toNat ≤ a.toNat :=
      Nat.le_of_not_le fun hle => h (UInt32.le_iff_toNat_le.mpr hle)
    exact (Nat.min_eq_right hle).symm

/-! ## Penalties -/

/-- A penalty in natural numbers. -/
theorem Penalty.toNat_of (p : Penalty) {n : Nat} (hn : n ≠ 0) :
    (p.of n).toNat = min (min (p.base.toNat
      + min (p.perItem.toNat * min n 4294967295) 4294967295) 4294967295) p.cap.toNat := by
  unfold Penalty.of
  rw [if_neg hn, toNat_min, toNat_addCapped, toNat_mulCapped, toNat_narrow]

/-- A failed category costs what its first finding costs, at least. -/
theorem Penalty.le_of (p : Penalty) {n : Nat} (hn : n ≠ 0) :
    (p.of 1).toNat ≤ (p.of n).toNat := by
  have hone : min 1 4294967295 ≤ min n 4294967295 := by omega
  have hitems := Nat.mul_le_mul_left p.perItem.toNat hone
  rw [p.toNat_of hn, p.toNat_of Nat.one_ne_zero]
  omega

/-- A penalty in unbounded numbers: nothing without a finding, else the base and what each finding
costs, up to the cap. -/
def Penalty.exact (p : Penalty) (count : Nat) : Nat :=
  if count = 0 then 0 else min (p.base.toNat + p.perItem.toNat * count) p.cap.toNat

/-- No penalty is changed by the words that it is computed on: where one of them stops, the sum is
above the cap already. -/
theorem Penalty.toNat_of_eq_exact (p : Penalty) (n : Nat) : (p.of n).toNat = p.exact n := by
  unfold Penalty.exact
  split
  case isTrue hn =>
    subst hn
    rfl
  case isFalse hn =>
    have hcap : p.cap.toNat < 4294967296 := p.cap.toNat_lt
    rw [p.toNat_of hn]
    by_cases hword : n ≤ 4294967295
    · rw [Nat.min_eq_left hword]
      omega
    · -- a count that is no word costs the cap, unless its findings cost nothing
      have hmin : min n 4294967295 = 4294967295 := by omega
      rw [hmin]
      obtain hfree | hcost := Nat.eq_zero_or_pos p.perItem.toNat
      · rw [hfree, Nat.zero_mul, Nat.zero_mul]
        omega
      · have hcount : n ≤ p.perItem.toNat * n := Nat.le_mul_of_pos_left n hcost
        have hmax : 4294967295 ≤ p.perItem.toNat * 4294967295 := Nat.le_mul_of_pos_left _ hcost
        omega

theorem Penalty.exact_mono (p : Penalty) {m n : Nat} (h : m ≤ n) : p.exact m ≤ p.exact n := by
  have hitems : p.perItem.toNat * m ≤ p.perItem.toNat * n := Nat.mul_le_mul_left _ h
  unfold Penalty.exact
  split <;> split <;> omega

theorem Penalty.exact_le_cap (p : Penalty) (n : Nat) : p.exact n ≤ p.cap.toNat := by
  unfold Penalty.exact
  split <;> omega

end Score

/-- The score is full just where nothing is found. -/
theorem score_eq_hundred_iff {i : ScoreInputs} :
    score i = 100 ↔ i.missingVariants = 0 ∧ i.spacingIssues = 0 ∧ i.colorIssues = 0 := by
  constructor
  · -- what a first finding costs, in each category
    have hfirst : (Score.variantPenalty.of 1).toNat = 13 ∧
        (Score.spacingPenalty.of 1).toNat = 10 ∧ (Score.colorPenalty.of 1).toNat = 12 := by
      decide
    obtain ⟨hvariant, hspacing, hcolor⟩ := hfirst
    have hvariants := Score.variantPenalty.le_of (n := i.missingVariants)
    have hspacings := Score.spacingPenalty.le_of (n := i.spacingIssues)
    have hcolors := Score.colorPenalty.le_of (n := i.colorIssues)
    intro h
    simp only [score, Score.spacingCredit, Score.severalPenalty, Bool.and_eq_true,
      decide_eq_true_eq] at h
    split at h <;> split at h <;> omega
  · rintro ⟨hvariants, hspacing, hcolors⟩
    rw [score, hvariants, hspacing, hcolors]
    rfl

namespace Score

/-! ## The sums of the score -/

/-- How many categories have failed. -/
def failures (i : ScoreInputs) : Nat :=
  [i.missingVariants, i.spacingIssues, i.colorIssues].countP fun n => 0 < n

/-- What several failed categories take away on top. -/
def severalOf (i : ScoreInputs) : Int := if 2 ≤ failures i then severalPenalty else 0

/-- What the use of spacing tokens gives back. -/
def creditOf (i : ScoreInputs) : Int :=
  if 0 < i.spacingIssues && i.hasSpacingToken then spacingCredit else 0

/-- What is added to the full score, in order, in unbounded numbers. -/
def ledger (i : ScoreInputs) : List Int :=
  [-(variantPenalty.exact i.missingVariants : Int), -(spacingPenalty.exact i.spacingIssues : Int),
    -(colorPenalty.exact i.colorIssues : Int), -severalOf i, creditOf i]

/-- The full score with all that is added to it. -/
def balance (i : ScoreInputs) : Int := (ledger i).foldl (· + ·) 100

theorem failures_eq (i : ScoreInputs) : failures i
    = min i.missingVariants 1 + min i.spacingIssues 1 + min i.colorIssues 1 := by
  simp only [failures, List.countP_cons, List.countP_nil, decide_eq_true_eq]
  split <;> split <;> split <;> omega

theorem severalOf_bounds (i : ScoreInputs) : 0 ≤ severalOf i ∧ severalOf i ≤ 5 := by
  unfold severalOf
  split <;> decide

/-- The credit is not more than half of what a first finding costs. -/
theorem creditOf_bounds (i : ScoreInputs) :
    0 ≤ creditOf i ∧ creditOf i ≤ 5 ∧ 2 * creditOf i ≤ spacingPenalty.exact i.spacingIssues := by
  have hfirst : spacingPenalty.exact 1 = 10 := by decide
  unfold creditOf
  split
  case isTrue h =>
    have hspacing : 1 ≤ i.spacingIssues := by
      simp only [Bool.and_eq_true, decide_eq_true_eq] at h
      exact h.1
    have hcost := spacingPenalty.exact_mono hspacing
    unfold spacingCredit
    omega
  case isFalse => omega

theorem caps : variantPenalty.cap.toNat = 20 ∧ spacingPenalty.cap.toNat = 30 ∧
    colorPenalty.cap.toNat = 20 := by decide

/-- Every sum on the way stays in the range of the score. -/
theorem sums_mem (i : ScoreInputs) :
    ∀ x ∈ (ledger i).scanl (· + ·) 100, 25 ≤ x ∧ x ≤ 100 := by
  obtain ⟨hvariantCap, hspacingCap, hcolorCap⟩ := caps
  have hvariant := variantPenalty.exact_le_cap i.missingVariants
  have hspacing := spacingPenalty.exact_le_cap i.spacingIssues
  have hcolor := colorPenalty.exact_le_cap i.colorIssues
  have hseveral := severalOf_bounds i
  have hcredit := creditOf_bounds i
  intro x hx
  simp only [ledger, List.scanl_cons, List.scanl_nil, List.mem_cons, List.not_mem_nil,
    or_false] at hx
  omega

/-- What spacing costs, less the credit, does not shrink when findings are added or tokens go. -/
theorem exact_sub_credit_mono {i j : ScoreInputs} (hspacing : i.spacingIssues ≤ j.spacingIssues)
    (htoken : j.hasSpacingToken = true → i.hasSpacingToken = true) :
    spacingPenalty.exact i.spacingIssues - creditOf i
      ≤ spacingPenalty.exact j.spacingIssues - creditOf j := by
  have hmono := spacingPenalty.exact_mono hspacing
  obtain ⟨-, -, hcredit⟩ := creditOf_bounds j
  obtain hnone | hsome := Nat.eq_zero_or_pos i.spacingIssues
  · -- a first finding costs more than the credit that it opens
    have hfree : spacingPenalty.exact i.spacingIssues = 0 := by
      rw [hnone]
      rfl
    have hopen := (creditOf_bounds i).1
    omega
  · have hless : creditOf j ≤ creditOf i := by
      have hopen := (creditOf_bounds i).1
      unfold creditOf
      split
      case isTrue h =>
        simp only [Bool.and_eq_true, decide_eq_true_eq] at h
        simp [hsome, htoken h.2]
      case isFalse => exact hopen
    omega

theorem balance_anti {i j : ScoreInputs} (hvariants : i.missingVariants ≤ j.missingVariants)
    (hspacing : i.spacingIssues ≤ j.spacingIssues) (hcolors : i.colorIssues ≤ j.colorIssues)
    (htoken : j.hasSpacingToken = true → i.hasSpacingToken = true) : balance j ≤ balance i := by
  have hvariant := variantPenalty.exact_mono hvariants
  have hcolor := colorPenalty.exact_mono hcolors
  have hcost := exact_sub_credit_mono hspacing htoken
  have hseveral : severalOf i ≤ severalOf j := by
    have hfailures : failures i ≤ failures j := by
      rw [failures_eq, failures_eq]
      omega
    unfold severalOf severalPenalty
    split <;> split <;> omega
  simp only [balance, ledger, List.foldl_cons, List.foldl_nil]
  omega

theorem balance_mem (i : ScoreInputs) : 25 ≤ balance i ∧ balance i ≤ 100 := by
  refine sums_mem i _ ?_
  simp [balance, ledger]

/-- The score is the balance, and nothing is left to be clamped. -/
theorem score_eq_balance (i : ScoreInputs) : (score i : Int) = balance i := by
  have hscore : score i = (min (max (balance i) 0) 100).toNat := by
    simp only [score, balance, ledger, severalOf, creditOf, failures, Penalty.toNat_of_eq_exact,
      List.foldl_cons, List.foldl_nil, Int.sub_eq_add_neg]
    split <;> split <;> simp only [Int.neg_zero, Int.add_zero, if_true, if_false, *]
  obtain ⟨hlow, hhigh⟩ := balance_mem i
  rw [hscore]
  omega

end Score

/-- What holds of the score for every count of findings. -/
structure ScoreInputs.WellScored (i : ScoreInputs) : Prop where
  range : 25 ≤ score i ∧ score i ≤ 100
  full_iff : score i = 100 ↔ i.missingVariants = 0 ∧ i.spacingIssues = 0 ∧ i.colorIssues = 0
  /-- More findings of any category do not raise the score. -/
  findings : ∀ j : ScoreInputs, i.missingVariants ≤ j.missingVariants →
    i.spacingIssues ≤ j.spacingIssues → i.colorIssues ≤ j.colorIssues →
    j.hasSpacingToken = i.hasSpacingToken → score j ≤ score i
  /-- The use of spacing tokens does not lower it. -/
  token : score { i with hasSpacingToken := false } ≤ score { i with hasSpacingToken := true }
  /-- No penalty is changed by the words that it is computed on. -/
  words : ∀ p : Score.Penalty, ∀ n, (p.of n).toNat = p.exact n
  /-- The score is what the unbounded numbers come to, with nothing left to be clamped, and every
  sum on the way is in the range. -/
  exact : (score i : Int) = Score.balance i
  sums : ∀ x ∈ (Score.ledger i).scanl (· + ·) 100, 25 ≤ x ∧ x ≤ 100

theorem wellScored (i : ScoreInputs) : i.WellScored where
  range := by
    have hexact := Score.score_eq_balance i
    have hrange := Score.balance_mem i
    omega
  full_iff := score_eq_hundred_iff
  findings := by
    intro j hvariants hspacing hcolors htoken
    have hanti := Score.balance_anti hvariants hspacing hcolors fun h => htoken ▸ h
    have hi := Score.score_eq_balance i
    have hj := Score.score_eq_balance j
    omega
  token := by
    have hanti := Score.balance_anti (i := { i with hasSpacingToken := true })
      (j := { i with hasSpacingToken := false }) le_rfl le_rfl le_rfl nofun
    have hwith := Score.score_eq_balance { i with hasSpacingToken := true }
    have hwithout := Score.score_eq_balance { i with hasSpacingToken := false }
    omega
  words := Score.Penalty.toNat_of_eq_exact
  exact := Score.score_eq_balance i
  sums := Score.sums_mem i

end DesignTokens
