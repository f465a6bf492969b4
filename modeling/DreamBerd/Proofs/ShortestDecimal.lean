import DreamBerd.Decimal.Shortest
import DreamBerd.Proofs.Rounding

/-!
# The shortest decimal names its `Float`

`Decimal.shortest` tries one number of digits after the other and keeps the first decimal that lies
between the midpoints around the given `Float`. Seventeen digits always give one: they leave steps
that are smaller than the distance of the midpoints.
-/

namespace DreamBerd.Decimal

open Binary64

variable {den num m d low high n : Nat} {e q k : Int} {x : ℚ}

def value (d : Decimal) : ℚ := d.digits * 10 ^ d.exponent

/-! ## The interval around a `Float` -/

theorem scale_pos (hden : 0 < den) : 0 < (scale num den e).2 := divPow_pos (by decide) num hden e

theorem scale_div : ((scale num den e).1 : ℚ) / (scale num den e).2 = num / den / 10 ^ e :=
  divPow_div 10 num den e

theorem scale_le_iff (hden : 0 < den) :
    (scale num den e).1 ≤ d * (scale num den e).2 ↔ (num : ℚ) / den ≤ d * 10 ^ e := by
  have scaled : (0 : ℚ) < (scale num den e).2 := by exact_mod_cast scale_pos hden
  rw [← div_le_iff₀ (by positivity), ← scale_div, div_le_iff₀ scaled]
  exact_mod_cast Iff.rfl

theorem le_scale_iff (hden : 0 < den) :
    d * (scale num den e).2 ≤ (scale num den e).1 ↔ d * 10 ^ e ≤ (num : ℚ) / den := by
  have scaled : (0 : ℚ) < (scale num den e).2 := by exact_mod_cast scale_pos hden
  rw [← le_div_iff₀ (by positivity), ← scale_div, le_div_iff₀ scaled]
  exact_mod_cast Iff.rfl

theorem within_closed (hden : 0 < den) :
    within true low high den d e = true ↔
      (low : ℚ) / den ≤ d * 10 ^ e ∧ d * 10 ^ e ≤ (high : ℚ) / den := by
  rw [← scale_le_iff hden, ← le_scale_iff hden]
  simp [within]

theorem within_open (hden : 0 < den) :
    within false low high den d e = true ↔
      (low : ℚ) / den < d * 10 ^ e ∧ d * 10 ^ e < (high : ℚ) / den := by
  rw [← not_le, ← not_le, ← scale_le_iff hden, ← le_scale_iff hden]
  simp [within]

theorem ratio_pos : 0 < (ratio n k).2 := by
  unfold ratio
  simp only [Nat.pow_eq]
  split <;> positivity

theorem ratio_div : ((ratio n k).1 : ℚ) / (ratio 1 k).2 = n * 2 ^ k := by
  unfold ratio
  split
  · rename_i whole
    obtain ⟨j, rfl⟩ := Int.eq_ofNat_of_zero_le whole
    simp
  · obtain ⟨j, rfl⟩ : ∃ j : Nat, k = -j := ⟨(-k).toNat, by omega⟩
    rw [zpow_neg, ← div_eq_mul_inv]
    simp

/-- What `surroundings` gives: a value and its two midpoints, as numerators over one denominator. -/
structure Surrounds (m : Nat) (q : Int) (num low high den : Nat) : Prop where
  positive : 0 < den
  value : (num : ℚ) / den = m * 2 ^ q
  lower : (low : ℚ) / den = lowerQuarters m q * 2 ^ (q - 2)
  upper : (high : ℚ) / den = upperQuarters m * 2 ^ (q - 2)

theorem surrounds (given : surroundings m q = (num, low, high, den)) :
    Surrounds m q num low high den := by
  cases given
  refine ⟨ratio_pos, ?_, ratio_div, ratio_div⟩
  rw [ratio_div, quarter_mul]
  push_cast
  ring

/-- The test of `ofLength?`: the decimal lies between the midpoints around `m * 2 ^ q`. -/
theorem Surrounds.within_iff (around : Surrounds m q num low high den) :
    within (m % 2 == 0) low high den d e = true ↔ Nearest m q (d * 10 ^ e) := by
  by_cases even : m % 2 = 0
  · rw [even, beq_self_eq_true, within_closed around.positive, around.lower, around.upper]
    exact ⟨fun h => ⟨h.1, h.2, fun _ => even⟩, fun near => ⟨near.above, near.below⟩⟩
  · rw [beq_eq_false_iff_ne.mpr even, within_open around.positive, around.lower, around.upper]
    constructor
    · rintro ⟨above, below⟩
      refine ⟨above.le, below.le, ?_⟩
      rintro (onLower | onUpper)
      · exact absurd onLower above.ne'
      · exact absurd onUpper below.ne
    · intro near
      exact ⟨lt_of_le_of_ne near.above fun same => even (near.tie (Or.inl same.symm)),
        lt_of_le_of_ne near.below fun same => even (near.tie (Or.inr same))⟩

/-! ## The leading digit -/

theorem powerLe_iff (hden : 0 < den) : powerLe e num den = true ↔ (10 : ℚ) ^ e ≤ num / den := by
  have same : powerLe e num den = decide (1 * (scale num den e).2 ≤ (scale num den e).1) := by
    unfold powerLe scale
    split <;> simp [Nat.mul_comm]
  rw [same, decide_eq_true_iff, le_scale_iff hden, Nat.cast_one, one_mul]

theorem climb_le (n : Nat) (hden : 0 < den) (start : (10 : ℚ) ^ e ≤ num / den) :
    (10 : ℚ) ^ climb num den n e ≤ num / den := by
  induction n generalizing e with
  | zero => exact start
  | succ n ih =>
    rw [climb]
    split
    · rename_i higher
      exact ih ((powerLe_iff hden).mp higher)
    · exact start

theorem zpow_le_of_pow_le {a b : Int} (positive : n ≠ 0)
    (powers : (10 : ℚ) ^ (a * n) ≤ 2 ^ (b * n)) : (10 : ℚ) ^ a ≤ 2 ^ b := by
  rw [zpow_mul, zpow_mul] at powers
  exact (pow_le_pow_iff_left₀ (by positivity) (by positivity) positive).mp powers

/-- The first guess of `leading` is low enough: `30103 / 100000` is so close to the logarithm of two
that the three digits taken off make up for the difference. -/
theorem guess_le {bits : Int} (least : -2000 ≤ bits) (most : bits ≤ 2000)
    (guess : e * 100000 + 300000 ≤ bits * 30103) : (10 : ℚ) ^ e ≤ 2 ^ (bits - 1) := by
  rcases le_or_gt 1 bits with positive | negative
  · obtain ⟨k, exponent⟩ := Int.eq_ofNat_of_zero_le (show 0 ≤ bits - 1 by omega)
    apply zpow_le_of_pow_le (n := 196) (by decide)
    calc (10 : ℚ) ^ (e * (196 : Nat)) ≤ 10 ^ ((59 : Nat) * (k : Int)) :=
          zpow_le_zpow_right₀ (by norm_num) (by omega)
      _ = (10 ^ 59) ^ k := by rw [zpow_mul, zpow_natCast, zpow_natCast]
      _ ≤ (2 ^ 196) ^ k := by gcongr; norm_num
      _ = 2 ^ ((bits - 1) * (196 : Nat)) := by
          rw [exponent, mul_comm, zpow_mul, zpow_natCast, zpow_natCast]
  · obtain ⟨k, exponent⟩ : ∃ k : Nat, bits - 1 = -k := ⟨(1 - bits).toNat, by omega⟩
    apply zpow_le_of_pow_le (n := 93) (by decide)
    calc (10 : ℚ) ^ (e * (93 : Nat)) ≤ 10 ^ (-((28 : Nat) * (k : Int))) :=
          zpow_le_zpow_right₀ (by norm_num) (by omega)
      _ = ((10 ^ 28) ^ k)⁻¹ := by rw [zpow_neg, zpow_mul, zpow_natCast, zpow_natCast]
      _ ≤ ((2 ^ 93) ^ k)⁻¹ := by gcongr; norm_num
      _ = 2 ^ ((bits - 1) * (93 : Nat)) := by
          rw [exponent, neg_mul, zpow_neg, mul_comm, zpow_mul, zpow_natCast, zpow_natCast]

theorem leading_le (hnum : 0 < num) (hden : 0 < den) (least : (2 : ℚ) ^ (-1999 : Int) ≤ num / den)
    (most : (num : ℚ) / den ≤ 2 ^ (1999 : Int)) : (10 : ℚ) ^ leading num den ≤ num / den := by
  obtain ⟨low, high⟩ := ratio_bounds hnum hden
  have above := lt_of_zpow_lt (least.trans_lt high)
  have below := lt_of_zpow_lt (low.trans_le most)
  apply climb_le 8 hden
  refine (guess_le (by omega) (by omega) ?_).trans low.le
  rw [Int.fdiv_eq_ediv_of_nonneg _ (by decide)]
  omega

/-! ## Decimals of a given length -/

theorem cut_le (hden : 0 < den) :
    (((scale num den e).1 / (scale num den e).2 : Nat) : ℚ) * 10 ^ e ≤ num / den := by
  rw [← le_scale_iff hden]
  exact Nat.div_mul_le_self _ _

theorem le_cut (hden : 0 < den) :
    (num : ℚ) / den ≤ ((scale num den e).1 / (scale num den e).2 + 1 : Nat) * 10 ^ e := by
  rw [← scale_le_iff hden, Nat.add_mul, Nat.one_mul]
  exact (Nat.lt_div_mul_add (scale_pos hden)).le

theorem roundHalfEven_cases (num den : Nat) :
    roundHalfEven num den = num / den ∨ roundHalfEven num den = num / den + 1 := by
  unfold roundHalfEven
  dsimp only
  split
  · exact Or.inl rfl
  split
  · exact Or.inr rfl
  split
  · exact Or.inl rfl
  · exact Or.inr rfl

theorem nearest_of_ofLength? {d : Decimal} (found : ofLength? m q n = some d) :
    Nearest m q d.value := by
  rcases given : surroundings m q with ⟨num, low, high, den⟩
  have around := surrounds given
  unfold ofLength? at found
  rw [given] at found
  dsimp only at found
  generalize leading num den - n + 1 = e at found
  have halves := roundHalfEven_cases (scale num den e).1 (scale num den e).2
  generalize roundHalfEven (scale num den e).1 (scale num den e).2 = half at found halves
  generalize (scale num den e).1 / (scale num den e).2 = cut at found halves
  generalize down : within (m % 2 == 0) low high den cut e = isDown at found
  generalize up : within (m % 2 == 0) low high den (cut + 1) e = isUp at found
  cases isDown with
  | true =>
    cases isUp with
    | true =>
      cases found
      rcases halves with rfl | rfl
      · exact around.within_iff.mp down
      · exact around.within_iff.mp up
    | false =>
      cases found
      exact around.within_iff.mp down
  | false =>
    cases isUp with
    | true =>
      cases found
      exact around.within_iff.mp up
    | false => cases found

/-- A decimal is found if the digits of the value, cut off or with the last one raised, lie between
the midpoints. -/
theorem ofLength?_ne_none
    (given : surroundings m q = (num, low, high, den)) (last : leading num den - n + 1 = e)
    (near : Nearest m q (((scale num den e).1 / (scale num den e).2 : Nat) * 10 ^ e) ∨
      Nearest m q (((scale num den e).1 / (scale num den e).2 + 1 : Nat) * 10 ^ e)) :
    ofLength? m q n ≠ none := by
  have around := surrounds given
  rw [← around.within_iff, ← around.within_iff] at near
  unfold ofLength?
  rw [given]
  dsimp only
  rw [last]
  generalize within (m % 2 == 0) low high den _ e = isDown at near ⊢
  generalize within (m % 2 == 0) low high den _ e = isUp at near ⊢
  cases isDown with
  | true => cases isUp <;> simp
  | false =>
    cases isUp with
    | true => simp
    | false => simp at near

/-! ## Seventeen digits -/

theorem value_eq_quarters (m : Nat) (q : Int) : (m : ℚ) * 2 ^ q = (4 * m : ℚ) * 2 ^ (q - 2) := by
  rw [quarter_mul]
  ring

theorem lowerQuarters_lt (positive : 0 < m) : lowerQuarters m q < 4 * m := by
  unfold lowerQuarters
  split <;> omega

theorem nearest_of_le (below : x ≤ m * 2 ^ q) (above : (lowerQuarters m q : ℚ) * 2 ^ (q - 2) < x) :
    Nearest m q x := by
  have less : x < upperQuarters m * 2 ^ (q - 2) := by
    refine below.trans_lt ?_
    rw [value_eq_quarters m q, upperQuarters]
    gcongr
    push_cast
    linarith
  refine ⟨above.le, less.le, ?_⟩
  rintro (onLower | onUpper)
  · exact absurd onLower above.ne'
  · exact absurd onUpper less.ne

theorem nearest_of_ge (positive : 0 < m) (above : (m : ℚ) * 2 ^ q ≤ x)
    (below : x < upperQuarters m * 2 ^ (q - 2)) : Nearest m q x := by
  have more : (lowerQuarters m q : ℚ) * 2 ^ (q - 2) < x := by
    refine lt_of_lt_of_le ?_ above
    rw [value_eq_quarters m q]
    gcongr
    exact_mod_cast lowerQuarters_lt positive
  refine ⟨more.le, below.le, ?_⟩
  rintro (onLower | onUpper)
  · exact absurd onLower more.ne'
  · exact absurd onUpper below.ne

/-- The midpoints are further apart than one unit of the seventeenth digit. -/
theorem width_gt (fits : Fits m q) :
    (m : ℚ) < 10 ^ 16 * ((upperQuarters m - lowerQuarters m q) / 4) := by
  have short := fits.short
  have width : 4 * m + 10 ^ 16 * lowerQuarters m q < 10 ^ 16 * upperQuarters m := by
    unfold lowerQuarters upperQuarters
    split <;> omega
  have : (4 * m + 10 ^ 16 * lowerQuarters m q : ℚ) < 10 ^ 16 * upperQuarters m := by
    exact_mod_cast width
  linarith

theorem nearest_of_step {cut : Nat} (fits : Fits m q) (positive : 0 < m)
    (step : (10 : ℚ) ^ 16 * 10 ^ e ≤ m * 2 ^ q) (below : (cut : ℚ) * 10 ^ e ≤ m * 2 ^ q)
    (above : (m : ℚ) * 2 ^ q ≤ (cut + 1 : Nat) * 10 ^ e) :
    Nearest m q (cut * 10 ^ e) ∨ Nearest m q ((cut + 1 : Nat) * 10 ^ e) := by
  by_contra neither
  rw [not_or] at neither
  -- Both candidates lie outside, so one step leads across the whole interval.
  have lower : (cut : ℚ) * 10 ^ e ≤ lowerQuarters m q * 2 ^ (q - 2) :=
    le_of_not_gt fun h => neither.1 (nearest_of_le below h)
  have upper : (upperQuarters m : ℚ) * 2 ^ (q - 2) ≤ (cut + 1 : Nat) * 10 ^ e :=
    le_of_not_gt fun h => neither.2 (nearest_of_ge positive above h)
  rw [quarter_mul] at lower upper
  push_cast at upper
  have wide := mul_lt_mul_of_pos_right (width_gt fits) (show (0 : ℚ) < 2 ^ q by positivity)
  linarith

theorem value_bounds (fits : Fits m q) (positive : 0 < m) :
    (2 : ℚ) ^ (-1074 : Int) ≤ m * 2 ^ q ∧ (m : ℚ) * 2 ^ q < 2 ^ (1024 : Int) := by
  obtain ⟨short, least, most, -⟩ := fits
  unfold minExponent maxExponent at *
  constructor
  · calc (2 : ℚ) ^ (-1074 : Int) ≤ 2 ^ q := zpow_le_zpow_right₀ (by norm_num) least
      _ ≤ m * 2 ^ q := by
          have : (1 : ℚ) ≤ m := by exact_mod_cast positive
          exact le_mul_of_one_le_left (by positivity) this
  · calc (m : ℚ) * 2 ^ q < 2 ^ 53 * 2 ^ q := by
          have : (m : ℚ) < 2 ^ 53 := by exact_mod_cast short
          gcongr
      _ ≤ 2 ^ 53 * 2 ^ (971 : Int) := by
          gcongr
          norm_num
      _ = 2 ^ (1024 : Int) := by
          rw [← zpow_natCast, ← zpow_add₀ (by norm_num)]
          rfl

theorem ofLength?_seventeen (fits : Fits m q) (positive : 0 < m) : ofLength? m q 17 ≠ none := by
  rcases given : surroundings m q with ⟨num, low, high, den⟩
  have around := surrounds given
  obtain ⟨least, most⟩ := value_bounds fits positive
  have hnum : 0 < num := by
    have : (0 : ℚ) < num / den := by
      rw [around.value]
      positivity
    rcases Nat.eq_zero_or_pos num with zero | positive'
    · simp [zero] at this
    · exact positive'
  have lead : (10 : ℚ) ^ leading num den ≤ num / den := by
    apply leading_le hnum around.positive
    · rw [around.value]
      exact (zpow_le_zpow_right₀ (by norm_num) (by norm_num)).trans least
    · rw [around.value]
      exact most.le.trans (zpow_le_zpow_right₀ (by norm_num) (by norm_num))
  rw [around.value] at lead
  have last : leading num den - (17 : Nat) + 1 = leading num den - 16 := by omega
  apply ofLength?_ne_none given last
  apply nearest_of_step fits positive
  · rw [zpow_sub₀ (by norm_num)]
    refine le_trans (le_of_eq ?_) lead
    ring
  · rw [← around.value]
    exact cut_le around.positive
  · rw [← around.value]
    exact le_cut around.positive

/-! ## The shortest decimal -/

theorem strip_value (n : Nat) (d : Decimal) : (strip n d).value = d.value := by
  induction n generalizing d with
  | zero => rfl
  | succ n ih =>
    rw [strip]
    split
    · rw [ih]
      have whole : (d.digits : ℚ) = (d.digits / 10 : Nat) * 10 := by
        have : d.digits = d.digits / 10 * 10 := by omega
        exact_mod_cast this
      rw [value, value, whole, zpow_add_one₀ (by norm_num)]
      ring
    · rfl

/-- The shortest decimal of a `Float` other than zero lies between the midpoints around it. -/
theorem shortest_nearest (fits : Fits m q) (positive : 0 < m) : Nearest m q (shortest m q).value := by
  have found : ((List.range 17).findSome? fun i => ofLength? m q (i + 1)) ≠ none := by
    rw [ne_eq, List.findSome?_eq_none_iff]
    intro none
    exact ofLength?_seventeen fits positive (none 16 (by decide))
  obtain ⟨d, first⟩ := Option.ne_none_iff_exists'.mp found
  obtain ⟨i, -, here⟩ := List.exists_of_findSome?_eq_some first
  unfold shortest
  rw [if_neg positive.ne', first, strip_value]
  exact nearest_of_ofLength? here

end DreamBerd.Decimal
