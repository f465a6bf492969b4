import DreamBerd.Binary64
import Mathlib

/-!
# Rounding to the nearest `Float`

A finite `Float` is a significand and an exponent, and `Binary64.assemble` puts the two together again.
The numbers nearer to it than to any other `Float` fill the interval between two midpoints,
`Binary64.Nearest`, and `Binary64.ofRatio` sends every ratio in this interval to it.
-/

namespace DreamBerd.Binary64

variable {q : Int} {num den m n : Nat} {negative : Bool} {x : Float}

/-! ## The bits of a `Float` -/

section Bits

open Float.Model Float.Model.UnpackedFloat

variable {s : Sign}

theorem eq_of_toBits (same : x.toBits.toNat = y.toBits.toNat) : x = y := by
  exact Float.toBits_inj.mp (UInt64.toNat_inj.mp same)

theorem toNat_packComponents (s : Sign) (e : BitVec 11) (m : BitVec 52) :
    (packComponents Format.binary64 s e m).toNat =
      s.toBitVec.toNat * 2 ^ 63 + e.toNat * 2 ^ 52 + m.toNat := by
  have whole : (2 : Nat) ^ 63 = 2 ^ 11 * 2 ^ 52 := rfl
  unfold packComponents
  rw [BitVec.toNat_append, BitVec.toNat_append, ← Nat.shiftLeft_add_eq_or_of_lt m.isLt,
    ← Nat.shiftLeft_add_eq_or_of_lt e.isLt, Nat.shiftLeft_eq, Nat.shiftLeft_eq, whole, Nat.add_mul,
    Nat.mul_assoc]

theorem toNat_unpackMantissa (b : BitVec Format.binary64.numBits) :
    (unpackMantissa b).toNat = b.toNat % 2 ^ 52 := by
  simp [unpackMantissa]

theorem toNat_unpackExponent (b : BitVec Format.binary64.numBits) :
    (unpackExponent b).toNat = b.toNat / 2 ^ 52 % 2048 := by
  simp [unpackExponent, Nat.shiftRight_eq_div_pow]

theorem toNat_sign (b : BitVec Format.binary64.numBits) :
    (Sign.ofBitVec (unpackSign b)).toBitVec.toNat = b.toNat / 2 ^ 63 := by
  have bit : (unpackSign b).toNat = b.toNat / 2 ^ 63 % 2 := by
    simp [unpackSign, Nat.shiftRight_eq_div_pow]
  have bound : b.toNat < 2 ^ 64 := b.isLt
  rw [Sign.toBitVec_ofBitVec]
  omega

/-- Only an exponent of ones in front of a fraction stands for no number. -/
theorem isNaNBits_eq_false {b : BitVec Format.binary64.numBits}
    (number : b.toNat / 2 ^ 52 % 2048 = 2047 → b.toNat % 2 ^ 52 = 0) : isNaNBits b = false := by
  refine decide_eq_false fun ⟨full, nonzero⟩ => nonzero (BitVec.eq_of_toNat_eq ?_)
  rw [toNat_unpackMantissa, number]
  · rfl
  · rw [← toNat_unpackExponent]
    exact congrArg BitVec.toNat full

theorem toBits_ofBits (bound : n ≤ 2047 * 2 ^ 52) :
    (Float.ofBits (UInt64.ofNat n)).toBits.toNat = n := by
  have bits : (UInt64.ofNat n).toBitVec.toNat = n := by
    show n % 2 ^ 64 = n
    omega
  show (UnpackedFloat.pack Format.binary64
    (UnpackedFloat.unpack Format.binary64 (UInt64.ofNat n).toBitVec)).toNat = _
  rw [pack_unpack, isNaNBits_eq_false (by omega), if_neg Bool.false_ne_true, bits]

theorem neg_unpack {spec : Format} (b : BitVec spec.numBits) :
    (UnpackedFloat.unpack spec b).neg = UnpackedFloat.unpack spec (packComponents spec
      (-Sign.ofBitVec (unpackSign b)) (unpackExponent b) (unpackMantissa b)) := by
  unfold UnpackedFloat.unpack
  simp only [unpackSign_packComponents, unpackExponent_packComponents, unpackMantissa_packComponents,
    Sign.ofBitVec_toBitVec]
  split_ifs <;> rfl

theorem toNat_pack_neg (bound : b.toNat ≤ 2047 * 2 ^ 52) :
    (UnpackedFloat.pack Format.binary64 (UnpackedFloat.unpack Format.binary64 b).neg).toNat =
      2 ^ 63 + b.toNat := by
  have clear : Sign.ofBitVec (unpackSign b) = .positive := by
    have sign := toNat_sign b
    cases given : Sign.ofBitVec (unpackSign b) with
    | positive => rfl
    | negative =>
      have set : 1 = b.toNat / 2 ^ 63 := by rwa [given] at sign
      omega
  have flipped : (packComponents Format.binary64 (-.positive) (unpackExponent b) (unpackMantissa b)).toNat =
      1 * 2 ^ 63 + b.toNat / 2 ^ 52 % 2048 * 2 ^ 52 + b.toNat % 2 ^ 52 := by
    rw [← toNat_unpackExponent]
    exact toNat_packComponents .negative _ _
  rw [neg_unpack, clear, pack_unpack, isNaNBits_eq_false (by omega), if_neg Bool.false_ne_true]
  omega

theorem toBits_neg (bound : x.toBits.toNat ≤ 2047 * 2 ^ 52) :
    (-x).toBits.toNat = 2 ^ 63 + x.toBits.toNat :=
  toNat_pack_neg bound

end Bits

theorem toBits_zero : (0.0 : Float).toBits.toNat = 0 := by decide +kernel

theorem toBits_infinity : infinity.toBits.toNat = 2047 * 2 ^ 52 := by decide +kernel

theorem toBits_signed (bound : x.toBits.toNat ≤ 2047 * 2 ^ 52) :
    (signed negative x).toBits.toNat = (if negative then 2 ^ 63 else 0) + x.toBits.toNat := by
  cases negative with
  | false => simp [signed]
  | true => simp [signed, toBits_neg bound]

theorem signed_eq (bound : y.toBits.toNat ≤ 2047 * 2 ^ 52)
    (magnitude : x.toBits.toNat % 2 ^ 63 = y.toBits.toNat) :
    signed (decide (2 ^ 63 ≤ x.toBits.toNat)) y = x := by
  have small : x.toBits.toNat < 2 ^ 64 := x.toBits.toNat_lt
  apply eq_of_toBits
  rw [toBits_signed bound]
  by_cases high : 2 ^ 63 ≤ x.toBits.toNat
  · rw [decide_eq_true high, if_pos rfl]
    omega
  · rw [decide_eq_false high, if_neg Bool.false_ne_true]
    omega

/-! ## Significands and exponents -/

/-- The significands and exponents of finite `Float`s. -/
structure Fits (m : Nat) (q : Int) : Prop where
  short : m < 2 ^ 53
  least : minExponent ≤ q
  most : q ≤ maxExponent
  normal : q = minExponent ∨ 2 ^ 52 ≤ m

theorem toBits_assemble (fits : Fits m q) :
    (assemble m q).toBits.toNat =
      if m < 2 ^ 52 then m else (q + 1075).toNat * 2 ^ 52 + (m - 2 ^ 52) := by
  obtain ⟨short, least, most, normal⟩ := fits
  unfold minExponent maxExponent at *
  unfold assemble maxExponent
  simp only [Nat.pow_eq]
  rw [if_neg (by omega), if_neg (by omega)]
  split
  · exact toBits_ofBits (by omega)
  · exact toBits_ofBits (by omega)

theorem toBits_assemble_le (fits : Fits m q) : (assemble m q).toBits.toNat ≤ 2047 * 2 ^ 52 := by
  rw [toBits_assemble fits]
  obtain ⟨short, least, most, normal⟩ := fits
  unfold minExponent maxExponent at *
  split <;> omega

theorem shape_eq_finite (shaped : shape x = .finite negative m q) :
    Fits m q ∧ negative = decide (2 ^ 63 ≤ x.toBits.toNat) ∧
      x.toBits.toNat % 2 ^ 63 = (assemble m q).toBits.toNat := by
  unfold shape at shaped
  simp only [Nat.pow_eq] at shaped
  split at shaped
  · split at shaped <;> cases shaped
  split at shaped
  · cases shaped
    have fits : Fits (x.toBits.toNat % 2 ^ 52) minExponent :=
      ⟨by omega, le_refl _, by decide, Or.inl rfl⟩
    refine ⟨fits, rfl, ?_⟩
    rw [toBits_assemble fits, if_pos (by omega)]
    omega
  · cases shaped
    have fits : Fits (x.toBits.toNat % 2 ^ 52 + 2 ^ 52)
        (((x.toBits.toNat / 2 ^ 52 % 2048 : Nat) : Int) - 1075) := by
      refine ⟨by omega, ?_, ?_, Or.inr (by omega)⟩
      · unfold minExponent
        omega
      · unfold maxExponent
        omega
    refine ⟨fits, rfl, ?_⟩
    rw [toBits_assemble fits, if_neg (by omega)]
    omega

theorem signed_assemble (shaped : shape x = .finite negative m q) :
    signed negative (assemble m q) = x := by
  obtain ⟨fits, sign, magnitude⟩ := shape_eq_finite shaped
  rw [sign]
  exact signed_eq (toBits_assemble_le fits) magnitude

theorem signed_infinity (shaped : shape x = .infinite negative) : signed negative infinity = x := by
  unfold shape at shaped
  simp only [Nat.pow_eq] at shaped
  split at shaped
  · split at shaped
    · cases shaped
      apply signed_eq (le_of_eq toBits_infinity)
      rw [toBits_infinity]
      omega
    · cases shaped
  · split at shaped <;> cases shaped

/-! ## Rounding a ratio -/

/-- The integer nearest to a number is `n`: a tie goes to `n` only if it is even. -/
structure RoundsTo (v : ℚ) (n : Nat) : Prop where
  above : (n : ℚ) - 1 / 2 ≤ v
  below : v ≤ n + 1 / 2
  tie : v = n - 1 / 2 ∨ v = n + 1 / 2 → n % 2 = 0

theorem RoundsTo.unique {v : ℚ} (one : RoundsTo v m) (other : RoundsTo v n) : m = n := by
  -- the greater of two would be the next one, with the number half-way between them
  have step {m n : Nat} (one : RoundsTo v m) (other : RoundsTo v n) : ¬m < n := by
    intro less
    have next : (m : ℚ) + 1 ≤ n := by exact_mod_cast less
    have low := one.below
    have high := other.above
    have even := one.tie (.inr (by linarith))
    have even' := other.tie (.inl (by linarith))
    have : (n : ℚ) = m + 1 := by linarith
    have : n = m + 1 := by exact_mod_cast this
    omega
  exact Nat.le_antisymm (not_lt.mp (step other one)) (not_lt.mp (step one other))

theorem roundHalfEven_roundsTo (positive : 0 < den) : RoundsTo ((num : ℚ) / den) (roundHalfEven num den) := by
  have den0 : (0 : ℚ) < den := by exact_mod_cast positive
  have whole : (num : ℚ) / den = (num / den : Nat) + (num % den : Nat) / den := by
    rw [div_eq_iff den0.ne', add_mul, div_mul_cancel₀ _ den0.ne']
    exact_mod_cast (Nat.div_add_mod' num den).symm
  have least : (0 : ℚ) ≤ (num % den : Nat) / den := by positivity
  have most : ((num % den : Nat) : ℚ) / den < 1 := by
    rw [div_lt_one den0]
    exact_mod_cast Nat.mod_lt num positive
  have half (n : Nat) : (n : ℚ) / den < 1 / 2 ↔ 2 * n < den := by
    rw [div_lt_div_iff₀ den0 two_pos, one_mul, mul_comm]
    exact_mod_cast Iff.rfl
  have half' (n : Nat) : 1 / 2 < (n : ℚ) / den ↔ den < 2 * n := by
    rw [div_lt_div_iff₀ two_pos den0, one_mul, mul_comm]
    exact_mod_cast Iff.rfl
  rw [whole]
  unfold roundHalfEven
  dsimp only
  generalize num / den = a
  generalize num % den = r at *
  have next : ((a + 1 : Nat) : ℚ) = a + 1 := Nat.cast_succ a
  split
  · have := (half r).mpr ‹_›
    exact ⟨by linarith, by linarith, by rintro (tie | tie) <;> linarith⟩
  split
  · have := (half' r).mpr ‹_›
    exact ⟨by linarith, by linarith, by rintro (tie | tie) <;> linarith⟩
  have tie : (r : ℚ) / den = 1 / 2 :=
    le_antisymm (not_lt.mp (mt (half' r).mp ‹_›)) (not_lt.mp (mt (half r).mp ‹_›))
  split
  · exact ⟨by linarith, by linarith, fun _ => ‹_›⟩
  · exact ⟨by linarith, by linarith, fun _ => by omega⟩

/-- A ratio divided by a power of a base. -/
def divPow (base num den : Nat) (e : Int) : Nat × Nat :=
  if 0 ≤ e then (num, den * base ^ e.toNat) else (num * base ^ (-e).toNat, den)

theorem divPow_pos {base : Nat} (base0 : 0 < base) (num : Nat) (positive : 0 < den) (q : Int) :
    0 < (divPow base num den q).2 := by
  unfold divPow
  split <;> positivity

theorem divPow_div (base num den : Nat) (q : Int) :
    ((divPow base num den q).1 : ℚ) / (divPow base num den q).2 = num / den / (base : ℚ) ^ q := by
  unfold divPow
  split
  · rename_i whole
    obtain ⟨k, rfl⟩ := Int.eq_ofNat_of_zero_le whole
    rw [div_div]
    simp
  · obtain ⟨k, rfl⟩ : ∃ k : Nat, q = -k := ⟨(-q).toNat, by omega⟩
    rw [zpow_neg, div_inv_eq_mul, div_mul_eq_mul_div]
    simp

theorem scaledRound_roundsTo (positive : 0 < den) :
    RoundsTo ((num : ℚ) / den / 2 ^ q) (scaledRound num den q) := by
  have same : scaledRound num den q = roundHalfEven (divPow 2 num den q).1 (divPow 2 num den q).2 := by
    unfold scaledRound divPow
    split <;> rfl
  have value : _ = (num : ℚ) / den / 2 ^ q := divPow_div 2 num den q
  rw [same, ← value]
  exact roundHalfEven_roundsTo (divPow_pos two_pos num positive q)

theorem scaledRound_eq (positive : 0 < den) (rounds : RoundsTo ((num : ℚ) / den / 2 ^ q) n) :
    scaledRound num den q = n :=
  (scaledRound_roundsTo positive).unique rounds

theorem scaledFloor_lt (positive : 0 < den) :
    scaledFloor num den q < n ↔ (num : ℚ) / den / 2 ^ q < n := by
  have same : scaledFloor num den q = (divPow 2 num den q).1 / (divPow 2 num den q).2 := by
    unfold scaledFloor divPow
    split <;> rfl
  have scaled := divPow_pos two_pos num positive q
  have value : _ = (num : ℚ) / den / 2 ^ q := divPow_div 2 num den q
  rw [same, Nat.div_lt_iff_lt_mul scaled, ← value, div_lt_iff₀ (by exact_mod_cast scaled)]
  exact_mod_cast Iff.rfl

theorem zpow_log2_le (positive : 0 < n) : (2 : ℚ) ^ (n.log2 : Int) ≤ n := by
  exact_mod_cast Nat.log2_self_le positive.ne'

theorem lt_zpow_log2 (n : Nat) : (n : ℚ) < 2 ^ ((n.log2 : Int) + 1) := by
  have : n < 2 ^ (n.log2 + 1) := Nat.lt_log2_self
  exact_mod_cast this

theorem ratio_bounds (hnum : 0 < num) (hden : 0 < den) :
    (2 : ℚ) ^ ((num.log2 : Int) - den.log2 - 1) < num / den ∧
      (num : ℚ) / den < 2 ^ ((num.log2 : Int) - den.log2 + 1) := by
  have den0 : (0 : ℚ) < den := by exact_mod_cast hden
  constructor
  · rw [lt_div_iff₀ den0]
    calc (2 : ℚ) ^ ((num.log2 : Int) - den.log2 - 1) * den
        < 2 ^ ((num.log2 : Int) - den.log2 - 1) * 2 ^ ((den.log2 : Int) + 1) := by
          have := lt_zpow_log2 den
          gcongr
      _ = 2 ^ (num.log2 : Int) := by
          rw [← zpow_add₀ (by norm_num)]
          congr 1
          omega
      _ ≤ num := zpow_log2_le hnum
  · rw [div_lt_iff₀ den0]
    calc (num : ℚ) < 2 ^ ((num.log2 : Int) + 1) := lt_zpow_log2 num
      _ = 2 ^ ((num.log2 : Int) - den.log2 + 1) * 2 ^ (den.log2 : Int) := by
          rw [← zpow_add₀ (by norm_num)]
          congr 1
          omega
      _ ≤ 2 ^ ((num.log2 : Int) - den.log2 + 1) * den := by
          have := zpow_log2_le hden
          gcongr

/-- The chosen exponent leaves exactly 53 bits before the point, unless it is the least one. -/
theorem exponentFor_eq (hnum : 0 < num) (hden : 0 < den) :
    ∃ e : Int, exponentFor num den = max e minExponent ∧ (2 : ℚ) ^ (52 + e) ≤ num / den ∧
      (num : ℚ) / den < 2 ^ (53 + e) := by
  obtain ⟨low, high⟩ := ratio_bounds hnum hden
  unfold exponentFor
  simp only [Nat.pow_eq]
  generalize hguess : (num.log2 : Int) - den.log2 - 53 = guess
  have lowExp : (num.log2 : Int) - den.log2 - 1 = 52 + guess := by omega
  have highExp : (num.log2 : Int) - den.log2 + 1 = 53 + (guess + 1) := by omega
  rw [lowExp] at low
  rw [highExp] at high
  have floor : scaledFloor num den guess < 2 ^ 53 ↔ (num : ℚ) / den < 2 ^ (53 + guess) := by
    rw [scaledFloor_lt hden, div_lt_iff₀ (by positivity), zpow_add₀ (by norm_num)]
    norm_num
  by_cases few : scaledFloor num den guess < 2 ^ 53
  · exact ⟨guess, by rw [if_pos few], low.le, floor.mp few⟩
  · refine ⟨guess + 1, by rw [if_neg few], ?_, high⟩
    have := not_lt.mp (mt floor.mpr few)
    rwa [show (52 : Int) + (guess + 1) = 53 + guess by omega]

theorem lt_of_zpow_lt {a b : Int} (h : (2 : ℚ) ^ a < 2 ^ b) : a < b :=
  (zpow_lt_zpow_iff_right₀ (by norm_num)).mp h

theorem exponentFor_of_normal (hnum : 0 < num) (hden : 0 < den) (least : minExponent ≤ q)
    (low : (2 : ℚ) ^ (52 + q) ≤ num / den) (high : (num : ℚ) / den < 2 ^ (53 + q)) :
    exponentFor num den = q := by
  obtain ⟨e, chosen, low', high'⟩ := exponentFor_eq hnum hden
  have notBelow := lt_of_zpow_lt (low.trans_lt high')
  have notAbove := lt_of_zpow_lt (low'.trans_lt high)
  omega

theorem exponentFor_of_small (hnum : 0 < num) (hden : 0 < den)
    (small : (num : ℚ) / den < 2 ^ (53 + minExponent)) : exponentFor num den = minExponent := by
  obtain ⟨e, chosen, low, -⟩ := exponentFor_eq hnum hden
  have notAbove := lt_of_zpow_lt (low.trans_lt small)
  omega

/-! ## The numbers nearest to a `Float` -/

/-- The lower midpoint of `m * 2 ^ q` in quarters of `2 ^ q`; the `Float` below a power of two is only
half as far away as the one above. -/
def lowerQuarters (m : Nat) (q : Int) : Nat :=
  4 * m - if m = 2 ^ 52 ∧ q > minExponent then 1 else 2

def upperQuarters (m : Nat) : Nat := 4 * m + 2

/-- The number lies between the midpoints around `m * 2 ^ q`, which belong to it if `m` is even. -/
structure Nearest (m : Nat) (q : Int) (v : ℚ) : Prop where
  above : (lowerQuarters m q : ℚ) * 2 ^ (q - 2) ≤ v
  below : v ≤ (upperQuarters m : ℚ) * 2 ^ (q - 2)
  tie : v = lowerQuarters m q * 2 ^ (q - 2) ∨ v = upperQuarters m * 2 ^ (q - 2) → m % 2 = 0

theorem quarter_mul (n : ℚ) (q : Int) : n * 2 ^ (q - 2) = n / 4 * 2 ^ q := by
  rw [zpow_sub₀ (by norm_num)]
  ring

namespace Nearest

variable {v : ℚ}

theorem le_div (near : Nearest m q v) : (lowerQuarters m q : ℚ) / 4 ≤ v / 2 ^ q := by
  rw [le_div_iff₀ (by positivity), ← quarter_mul]
  exact near.above

theorem div_le (near : Nearest m q v) : v / 2 ^ q ≤ m + 1 / 2 := by
  rw [div_le_iff₀ (by positivity)]
  refine near.below.trans (le_of_eq ?_)
  rw [quarter_mul, upperQuarters]
  push_cast
  ring

theorem roundsTo (positive : 0 < m) (near : Nearest m q v) : RoundsTo (v / 2 ^ q) m := by
  have low := near.le_div
  have quarters : (4 * m : ℚ) ≤ lowerQuarters m q + 2 := by
    have : 4 * m ≤ lowerQuarters m q + 2 := by
      unfold lowerQuarters
      split <;> omega
    exact_mod_cast this
  refine ⟨by linarith, near.div_le, ?_⟩
  intro onMidpoint
  apply near.tie
  rcases onMidpoint with lower | upper
  · left
    have exact : (lowerQuarters m q : ℚ) / 4 = m - 1 / 2 := le_antisymm (by linarith) (by linarith)
    rw [quarter_mul, exact, ← lower, div_mul_cancel₀ _ (by positivity)]
  · right
    rw [quarter_mul, ← div_mul_cancel₀ v (show (2 : ℚ) ^ q ≠ 0 by positivity), upper, upperQuarters]
    push_cast
    ring

/-- Only below a power of two does the interval reach into the numbers of the next lower exponent. -/
theorem eq_of_lt (fits : Fits m q) (near : Nearest m q v) (notLeast : q ≠ minExponent)
    (less : v / 2 ^ q < 2 ^ 52) : m = 2 ^ 52 ∧ (2 : ℚ) ^ 52 - 1 / 4 ≤ v / 2 ^ q := by
  have normal : 2 ^ 52 ≤ m := fits.normal.resolve_left notLeast
  have low := near.le_div
  have quarters : lowerQuarters m q < 4 * 2 ^ 52 := by
    have : (lowerQuarters m q : ℚ) < 4 * 2 ^ 52 := by linarith
    exact_mod_cast this
  unfold lowerQuarters at low quarters
  have above : q > minExponent := lt_of_le_of_ne fits.least (Ne.symm notLeast)
  by_cases exact : m = 2 ^ 52
  · refine ⟨exact, ?_⟩
    rw [if_pos ⟨exact, above⟩, exact] at low
    norm_num at low ⊢
    exact low
  · rw [if_neg fun h => exact h.1] at quarters
    omega

end Nearest

theorem assemble_carry : assemble (2 ^ 53) (q - 1) = assemble (2 ^ 52) q := by
  have other : ¬(2 ^ 52 = 2 ^ 53) := by decide
  unfold assemble
  simp only [Nat.pow_eq]
  rw [if_pos trivial, if_neg other, if_neg (lt_irrefl _), Nat.sub_self, Nat.add_zero,
    show q - 1 + 1 = q by omega, show q - 1 + 1076 = q + 1075 by omega]

theorem Nearest.num_pos (positive : 0 < m) (near : Nearest m q ((num : ℚ) / den)) : 0 < num := by
  rcases Nat.eq_zero_or_pos num with zero | nonzero
  · have low := near.above
    have quarters : 0 < lowerQuarters m q := by
      unfold lowerQuarters
      split <;> omega
    rw [zero, Nat.cast_zero, zero_div] at low
    have : (0 : ℚ) < lowerQuarters m q * 2 ^ (q - 2) := by positivity
    linarith
  · exact nonzero

theorem ofRatio_eq_signed (negative : Bool) (num den : Nat) :
    ofRatio negative num den = signed negative (ofRatio false num den) := by
  unfold ofRatio
  split <;> exact congrArg (signed negative) (if_neg Bool.false_ne_true).symm

theorem ofRatio_of_exponentFor (hnum : 0 < num) (chosen : exponentFor num den = q)
    (rounds : scaledRound num den q = n) :
    ofRatio negative num den = signed negative (assemble n q) := by
  unfold ofRatio
  rw [if_neg hnum.ne']
  dsimp only
  rw [chosen, rounds]

theorem ofRatio_carry (hnum : 0 < num) (hden : 0 < den) (least : minExponent ≤ q - 1)
    (low : (2 : ℚ) ^ 52 - 1 / 4 ≤ (num : ℚ) / den / 2 ^ q) (less : (num : ℚ) / den / 2 ^ q < 2 ^ 52) :
    ofRatio negative num den = signed negative (assemble (2 ^ 52) q) := by
  have double : (num : ℚ) / den / 2 ^ (q - 1) = 2 * ((num : ℚ) / den / 2 ^ q) := by
    rw [zpow_sub_one₀ (by norm_num)]
    field_simp
  have chosen : exponentFor num den = q - 1 := by
    apply exponentFor_of_normal hnum hden least
    · rw [zpow_add₀ (by norm_num), ← le_div_iff₀ (by positivity)]
      linarith
    · rw [zpow_add₀ (by norm_num), ← div_lt_iff₀ (by positivity)]
      linarith
  have rounds : scaledRound num den (q - 1) = 2 ^ 53 := by
    apply scaledRound_eq hden
    refine ⟨?_, ?_, fun _ => rfl⟩
    · linarith
    · linarith
  rw [ofRatio_of_exponentFor hnum chosen rounds, assemble_carry]

/-- Every ratio between the midpoints around `m * 2 ^ q` is rounded to the `Float` of this value. -/
theorem ofRatio_eq (fits : Fits m q) (positive : 0 < m) (hden : 0 < den)
    (near : Nearest m q ((num : ℚ) / den)) :
    ofRatio negative num den = signed negative (assemble m q) := by
  have hnum : 0 < num := near.num_pos positive
  have short : (m : ℚ) + 1 / 2 < 2 ^ 53 := by
    have : m + 1 ≤ 2 ^ 53 := fits.short
    have : (m : ℚ) + 1 ≤ 2 ^ 53 := by exact_mod_cast this
    linarith
  have high : (num : ℚ) / den < 2 ^ (53 + q) := by
    rw [zpow_add₀ (by norm_num), ← div_lt_iff₀ (by positivity)]
    exact near.div_le.trans_lt short
  have rounds := scaledRound_eq hden (near.roundsTo positive)
  by_cases least : q = minExponent
  · refine ofRatio_of_exponentFor hnum ?_ rounds
    rw [least] at high ⊢
    exact exponentFor_of_small hnum hden high
  rcases le_or_gt ((2 : ℚ) ^ 52) ((num : ℚ) / den / 2 ^ q) with normal | less
  · refine ofRatio_of_exponentFor hnum ?_ rounds
    apply exponentFor_of_normal hnum hden fits.least ?_ high
    rwa [zpow_add₀ (by norm_num), ← le_div_iff₀ (by positivity)]
  · obtain ⟨rfl, low⟩ := near.eq_of_lt fits least less
    have above := fits.least
    exact ofRatio_carry hnum hden (by omega) low less

end DreamBerd.Binary64
