import DreamBerd.Proofs.Precision

/-!
# Approximate equality of integers

Two integers are approximately equal if the quotient of their difference by the first one is less than a tenth.
The quotient has a sign, so that on one side of the first integer every distance is small enough, and it is
rounded, so that it has to stay below the midpoint before the `Float` for a tenth and must not be too large
(`Binary64.Rounded.lt_iff` is used for both bounds). `Store.tenth_decides_iff` says where the answer is the
one that an exact comparison of the distance with a tenth of the first integer gives.
-/

namespace DreamBerd

open Number

namespace Binary64

variable {x : Float} {num den m n : Nat} {p q : Int} {negative : Bool} {v : ℚ}

/-! ## The value of a `Float` -/

open Float.Model Float.Model.UnpackedFloat in
theorem isFinite_unpack {b : BitVec Format.binary64.numBits} (field : b.toNat / 2 ^ 52 % 2048 ≠ 2047) :
    (UnpackedFloat.unpack Format.binary64 b).isFinite = true := by
  have exponent : unpackExponent b ≠ -BitVec.ofNat Format.binary64.exponentBits 1 := by
    intro ones
    have := congrArg BitVec.toNat ones
    rw [toNat_unpackExponent] at this
    exact field this
  unfold UnpackedFloat.unpack
  rw [if_neg exponent]
  split
  · split <;> rfl
  · rfl

theorem isFinite_of_shape (shaped : shape x = .finite negative m q) : x.isFinite = true := by
  refine isFinite_unpack fun (infinite : x.toBits.toNat / 2 ^ 52 % 2048 = 2047) => ?_
  unfold shape at shaped
  simp only [Nat.pow_eq] at shaped
  rw [if_pos infinite] at shaped
  split at shaped <;> cases shaped

theorem isFinite_infinity (negative : Bool) : (signed negative infinity).isFinite = false := by
  cases negative <;> decide +kernel

theorem shape_signed_assemble (fits : Fits m q) :
    shape (signed negative (assemble m q)) = .finite negative m q := by
  have bits : (signed negative (assemble m q)).toBits.toNat = _ := toBits_signed (toBits_assemble_le fits)
  have sign : decide (2 ^ 63 ≤ (signed negative (assemble m q)).toBits.toNat) = negative := by
    have bound := toBits_assemble_le fits
    rw [bits]
    cases negative
    · exact decide_eq_false (by simp only [Bool.false_eq_true, if_false]; omega)
    · exact decide_eq_true (by simp only [if_true]; omega)
  rw [toBits_assemble fits] at bits
  obtain ⟨short, least, most, normal⟩ := fits
  unfold minExponent maxExponent at *
  unfold shape minExponent
  simp only [Nat.pow_eq]
  have low : (if negative then 2 ^ 63 else 0) % 2 ^ 52 = 0 ∧
      (if negative then 2 ^ 63 else 0) / 2 ^ 52 % 2048 = 0 := by
    cases negative <;> decide
  by_cases small : m < 2 ^ 52
  · rw [if_pos small] at bits
    rw [if_neg (by omega), if_pos (by omega)]
    congr <;> omega
  · rw [if_neg small] at bits
    rw [if_neg (by omega), if_neg (by omega)]
    congr <;> omega

theorem toRat?_of_shape (shaped : shape x = .finite negative m q) :
    toRat? x = some ((if negative then -1 else 1) * ((m : ℚ) * 2 ^ q)) := by
  have value : ((ratio m q).1 : ℚ) / (ratio m q).2 = m * 2 ^ q := by
    rw [← Decimal.ratio_div]
    unfold ratio
    split <;> rfl
  rw [toRat?, shaped]
  dsimp only
  rw [Rat.mkRat_eq_div, ← value]
  cases negative <;> simp [neg_div]

/-! ## Rounded ratios -/

/-- A positive number is rounded to `n * 2 ^ q`, with 53 bits unless `q` is the least exponent. -/
structure Rounded (v : ℚ) (n : Nat) (q : Int) : Prop where
  rounds : RoundsTo (v / 2 ^ q) n
  least : minExponent ≤ q
  below : v < 2 ^ 53 * 2 ^ q
  normal : q = minExponent ∨ 2 ^ 52 * 2 ^ q ≤ v

theorem exists_rounded (hnum : 0 < num) (hden : 0 < den) : ∃ n q, Rounded ((num : ℚ) / den) n q ∧
    ∀ negative, ofRatio negative num den = signed negative (assemble n q) := by
  obtain ⟨e, chosen, low, high⟩ := exponentFor_eq hnum hden
  refine ⟨_, _, ⟨scaledRound_roundsTo hden, ?_, ?_, ?_⟩, fun negative => ofRatio_of_exponentFor hnum rfl rfl⟩
  · rw [chosen]
    exact le_max_right e _
  · rw [← zpow_natCast, ← zpow_add₀ two_ne_zero]
    exact high.trans_le (zpow_le_zpow_right₀ one_le_two (by push_cast; omega))
  · rw [chosen]
    rcases le_total e minExponent with small | normal
    · exact .inl (max_eq_right small)
    · rw [max_eq_left normal, ← zpow_natCast, ← zpow_add₀ two_ne_zero]
      exact .inr low

theorem two_mul_zpow_le (less : p < q) : 2 * (2 : ℚ) ^ p ≤ 2 ^ q := by
  rw [← zpow_one_add₀ two_ne_zero]
  exact zpow_le_zpow_right₀ one_le_two (by omega)

namespace Rounded

theorem le (rounded : Rounded v n q) : n ≤ 2 ^ 53 := by
  have above := rounded.rounds.above
  have bound : v / 2 ^ q < 2 ^ 53 := (div_lt_iff₀ (by positivity)).mpr rounded.below
  have : (n : ℚ) < 2 ^ 53 + 1 := by linarith
  exact Nat.lt_succ_iff.mp (by exact_mod_cast this)

theorem normal_or (rounded : Rounded v n q) : q = minExponent ∨ 2 ^ 52 ≤ n := by
  refine rounded.normal.imp_right fun normal => ?_
  have below := rounded.rounds.below
  have bound : 2 ^ 52 ≤ v / 2 ^ q := (le_div_iff₀ (by positivity)).mpr normal
  have : (2 : ℚ) ^ 52 < n + 1 := by linarith
  exact Nat.lt_succ_iff.mp (by exact_mod_cast this)

/-- A number is rounded to less than an even `m * 2 ^ p` exactly if it is below the midpoint before it. -/
theorem lt_iff (rounded : Rounded v n q) (even : m % 2 = 0) (low : 2 ^ 52 < m) (high : m ≤ 2 ^ 53)
    (least : minExponent ≤ p) : (n : ℚ) * 2 ^ q < m * 2 ^ p ↔ v < (m - 1 / 2) * 2 ^ p := by
  have low' : (2 : ℚ) ^ 52 + 1 ≤ m := by exact_mod_cast low
  have high' : (m : ℚ) ≤ 2 ^ 53 := by exact_mod_cast high
  have unit : (0 : ℚ) < 2 ^ p := by positivity
  rcases lt_trichotomy q p with less | rfl | greater
  · -- the number has a lower exponent, and so has what it is rounded to
    have few : (n : ℚ) ≤ 2 ^ 53 := by exact_mod_cast rounded.le
    have double := two_mul_zpow_le less
    have below := rounded.below
    exact iff_of_true (by nlinarith) (by nlinarith)
  · rw [mul_lt_mul_iff_left₀ unit, ← div_lt_iff₀ unit]
    have above := rounded.rounds.above
    have below := rounded.rounds.below
    have tie := rounded.rounds.tie
    constructor
    · intro less
      have next : (n : ℚ) + 1 ≤ m := by exact_mod_cast less
      refine lt_of_le_of_ne (by linarith) fun midpoint => ?_
      have : (m : ℚ) = n + 1 := by linarith
      have : m = n + 1 := by exact_mod_cast this
      have := tie (.inr (by linarith))
      omega
    · intro less
      have : (n : ℚ) < m := by linarith
      exact_mod_cast this
  · have other : q ≠ minExponent := by omega
    have many : (2 : ℚ) ^ 52 ≤ n := by exact_mod_cast rounded.normal_or.resolve_left other
    have double := two_mul_zpow_le greater
    have above := rounded.normal.resolve_left other
    exact iff_of_false (by nlinarith) (by nlinarith)

/-- The numbers from which on rounding gives infinity. -/
def limit : ℚ := (2 ^ 53 - 1 / 2) * 2 ^ maxExponent

theorem lt_limit_iff (rounded : Rounded v n q) : (n : ℚ) * 2 ^ q < 2 ^ 53 * 2 ^ maxExponent ↔ v < limit := by
  have bound := rounded.lt_iff (p := maxExponent) (by decide) (by decide) le_rfl (by decide)
  exact_mod_cast bound

theorem exists_fits (rounded : Rounded v n q) (small : v < limit) :
    ∃ m p, Fits m p ∧ (m : ℚ) * 2 ^ p = n * 2 ^ q ∧ assemble n q = assemble m p := by
  have value := rounded.lt_limit_iff.mpr small
  have least := rounded.least
  rcases rounded.le.lt_or_eq with short | rfl
  · refine ⟨n, q, ⟨short, least, ?_, rounded.normal_or⟩, rfl, rfl⟩
    by_contra large
    have many : (2 : ℚ) ^ 52 ≤ n := by
      exact_mod_cast rounded.normal_or.resolve_left (by unfold minExponent maxExponent at *; omega)
    have double := two_mul_zpow_le (not_le.mp large)
    have := mul_le_mul_of_nonneg_right many (show (0 : ℚ) ≤ 2 ^ q by positivity)
    linarith
  · have less : q < maxExponent := by
      exact lt_of_zpow_lt (lt_of_mul_lt_mul_left value (by positivity))
    refine ⟨2 ^ 52, q + 1, ⟨by decide, by omega, less, .inr le_rfl⟩, ?_, ?_⟩
    · rw [zpow_add_one₀ two_ne_zero]
      ring
    · have carry := assemble_carry (q := q + 1)
      rwa [Int.add_sub_cancel] at carry

theorem eq_infinity (rounded : Rounded v n q) (large : limit ≤ v) : assemble n q = infinity := by
  have value := not_lt.mp (mt rounded.lt_limit_iff.mp (not_lt.mpr large))
  unfold assemble
  split
  · rename_i carry
    subst carry
    push_cast at value
    have exponent : maxExponent ≤ q := by
      by_contra less
      have := two_mul_zpow_le (not_le.mp less)
      nlinarith [show (0 : ℚ) < 2 ^ q by positivity]
    rw [if_pos (by omega)]
  · have few : (n : ℚ) < 2 ^ 53 := by exact_mod_cast lt_of_le_of_ne rounded.le ‹_›
    have exponent : maxExponent < q := by
      by_contra less
      have : (2 : ℚ) ^ q ≤ 2 ^ maxExponent := zpow_le_zpow_right₀ one_le_two (not_lt.mp less)
      nlinarith [show (0 : ℚ) < 2 ^ q by positivity]
    rw [if_pos exponent]

end Rounded

/-- The midpoint before the `Float` for a tenth. -/
def tenthBound : ℚ := (7205759403792794 - 1 / 2) * 2 ^ (-56 : Int)

theorem extent?_tenth : extent? (.real 0.1) = some (.finite (7205759403792794 * 2 ^ (-56 : Int))) := by
  have shaped : shape 0.1 = .finite false 7205759403792794 (-56) := by decide
  rw [extent?, extentOfFloat?, toRat?_of_shape shaped, shaped]
  simp

theorem abs_div_eq (a b : Int) : |(a : ℚ) / b| = (a.natAbs : ℚ) / b.natAbs := by
  rw [abs_div, Nat.cast_natAbs, Nat.cast_natAbs, Int.cast_abs, Int.cast_abs]

theorem div_eq_sign (a b : Int) :
    (a : ℚ) / b = (if decide (a < 0) != decide (b < 0) then -1 else 1) * ((a.natAbs : ℚ) / b.natAbs) := by
  have magnitude (c : Int) : (c.natAbs : ℚ) = if c < 0 then -c else c := by
    rw [Nat.cast_natAbs]
    split
    · rw [abs_of_neg ‹_›]
    · rw [abs_of_nonneg (not_lt.mp ‹_›)]
  rw [magnitude, magnitude]
  by_cases left : a < 0 <;> by_cases right : b < 0 <;> simp [left, right, neg_div, div_neg]

theorem quotient?_eq_none {a b : Int} (ha : a ≠ 0) (hb : b ≠ 0) (large : Rounded.limit ≤ |(a : ℚ) / b|) :
    quotient? a b = none := by
  obtain ⟨n, q, rounded, float⟩ := exists_rounded (Int.natAbs_pos.mpr ha) (Int.natAbs_pos.mpr hb)
  rw [abs_div_eq] at large
  unfold quotient?
  dsimp only
  rw [float, rounded.eq_infinity large, isFinite_infinity, if_neg Bool.false_ne_true]

theorem quotient?_lt_tenth {a b : Int} (ha : a ≠ 0) (hb : b ≠ 0) (small : |(a : ℚ) / b| < Rounded.limit) :
    ∃ x, quotient? a b = some x ∧
      lt (.real x) (.real 0.1) = .ok (decide ((a : ℚ) / b < tenthBound)) := by
  obtain ⟨n, q, rounded, float⟩ := exists_rounded (Int.natAbs_pos.mpr ha) (Int.natAbs_pos.mpr hb)
  rw [abs_div_eq] at small
  obtain ⟨m, p, fits, value, assembled⟩ := rounded.exists_fits small
  generalize sign : (decide (a < 0) != decide (b < 0)) = negative
  have shaped : shape (signed negative (assemble m p)) = _ := shape_signed_assemble fits
  have extent : extent? (.real (signed negative (assemble m p))) =
      some (.finite ((if negative then -1 else 1) * (n * 2 ^ q))) := by
    rw [extent?, extentOfFloat?, toRat?_of_shape shaped, shaped, value]
    rfl
  refine ⟨signed negative (assemble m p), ?_, ?_⟩
  · unfold quotient?
    rw [sign, float, assembled, if_pos (isFinite_of_shape shaped)]
  · rw [lt_eq extent extent?_tenth, Except.ok.injEq]
    refine decide_eq_decide.mpr ?_
    rw [div_eq_sign, sign]
    have bound : (n : ℚ) * 2 ^ q < 7205759403792794 * 2 ^ (-56 : Int) ↔
        (a.natAbs : ℚ) / b.natAbs < tenthBound := by
      have := rounded.lt_iff (m := 7205759403792794) (p := -56) (by decide) (by decide) (by decide) (by decide)
      exact_mod_cast this
    cases negative with
    | false => simpa using bound
    | true =>
      have left : (0 : ℚ) ≤ n * 2 ^ q := by positivity
      have right : (0 : ℚ) ≤ (a.natAbs : ℚ) / b.natAbs := by positivity
      have positive : 0 < tenthBound := by
        unfold tenthBound
        norm_num
      have positive' : (0 : ℚ) < 7205759403792794 * 2 ^ (-56 : Int) := by positivity
      exact iff_of_true (by simp only [if_true]; linarith) (by simp only [if_true]; linarith)

end Binary64

theorem Truth.ofBool_inj {b c : Bool} : ofBool b = ofBool c ↔ b = c := by
  cases b <;> cases c <;> simp [ofBool]

namespace Store

variable {s : Store} {x y : ValueRef} {a b : Int}

open Binary64 (tenthBound Rounded.limit)

theorem nearNumbers_int (a b : Int) : nearNumbers (.int a) (.int b) =
    if a = b then .ok .yes
    else if a = 0 then .ok .no
    else if |((a - b : Int) : ℚ) / a| < Rounded.limit then
      .ok (.ofBool (decide (((a - b : Int) : ℚ) / a < tenthBound)))
    else .error (.breakdown .overflow) := by
  have equal (m n : Int) : (int m == .int n) = (m == n) := rfl
  unfold nearNumbers
  rw [equal, equal]
  by_cases same : a = b
  · rw [if_pos (beq_iff_eq.mpr same), if_pos same]
    rfl
  rw [if_neg (mt beq_iff_eq.mp same), if_neg same]
  by_cases zero : a = 0
  · rw [if_pos (beq_iff_eq.mpr zero), if_pos zero]
    rfl
  rw [if_neg (mt beq_iff_eq.mp zero), if_neg zero]
  show ((int (a - b)).div (.int a) >>= _) = _
  by_cases small : |((a - b : Int) : ℚ) / a| < Rounded.limit
  · obtain ⟨x, rounded, less⟩ := Binary64.quotient?_lt_tenth (sub_ne_zero.mpr same) zero small
    have divided : (int (a - b)).div (.int a) = .ok (.real x) := by
      simp [div, whole?, zero, rounded]
    rw [if_pos small, divided]
    exact congrArg (fun answer => answer >>= fun b => pure (Truth.ofBool b)) less
  · have rounded := Binary64.quotient?_eq_none (sub_ne_zero.mpr same) zero (not_lt.mp small)
    have divided : (int (a - b)).div (.int a) = .error (.breakdown .overflow) := by
      simp [div, whole?, zero, rounded]
    rw [if_neg small, divided]
    rfl

theorem approx_integers (left : s.value x = .number (.int a)) (right : s.value y = .number (.int b)) :
    s.approx x y = nearNumbers (.int a) (.int b) := by
  obtain ⟨k, extent⟩ := s.exists_extent_eq
  have first : s.approxAtOnce x y = (do return some (← nearNumbers (.int a) (.int b))) := by
    have identical : s.identical x y = (x == y) := by
      unfold identical
      rw [left, Bool.or_false]
    unfold approxAtOnce
    rw [identical, left, right]
    split
    · have same : x = y := eq_of_beq ‹_›
      rw [same, right] at left
      cases left
      rw [nearNumbers_of_beq (beq_iff_eq.mpr rfl : (a == a) = true)]
      rfl
    · rfl
  rw [approx, extent, approxIn, first]
  cases nearNumbers (.int a) (.int b) <;> rfl

/-- Approximate equality of integers is distance of less than a tenth of the first one, if and only if the second
one does not lie a tenth or more beyond the first, the quotient is not so near to a tenth that it is rounded up
to it, and not too large. -/
theorem tenth_decides_iff (left : s.value x = .number (.int a)) (right : s.value y = .number (.int b)) :
    s.approx x y = .ok (.ofBool (decide (a = b ∨ a ≠ 0 ∧ |(a : ℚ) - b| < |(a : ℚ)| / 10))) ↔
      a = b ∨ a = 0 ∨ -1 / 10 < ((a : ℚ) - b) / a ∧ ((a : ℚ) - b) / a < tenthBound ∨
        1 / 10 ≤ ((a : ℚ) - b) / a ∧ ((a : ℚ) - b) / a < Rounded.limit := by
  rw [approx_integers left right, nearNumbers_int, Int.cast_sub]
  by_cases same : a = b
  · rw [if_pos same]
    exact iff_of_true (by simp [same, Truth.ofBool]) (.inl same)
  by_cases zero : a = 0
  · rw [if_neg same, if_pos zero]
    have none : ¬(a = b ∨ a ≠ 0 ∧ |(a : ℚ) - b| < |(a : ℚ)| / 10) := by
      rintro (equal | ⟨other, -⟩)
      · exact same equal
      · exact other zero
    rw [decide_eq_false none]
    exact iff_of_true rfl (.inr (.inl zero))
  have close : |(a : ℚ) - b| < |(a : ℚ)| / 10 ↔ |((a : ℚ) - b) / a| < 1 / 10 := by
    have positive : 0 < |(a : ℚ)| := abs_pos.mpr (Int.cast_ne_zero.mpr zero)
    rw [abs_div, div_lt_iff₀ positive, one_div_mul_eq_div]
  have low : 0 < tenthBound ∧ tenthBound < 1 / 10 := by
    unfold tenthBound
    norm_num
  have high : (1 : ℚ) < Rounded.limit := by
    have : (1 : ℚ) ≤ 2 ^ Binary64.maxExponent := one_le_zpow₀ one_le_two (by decide)
    unfold Rounded.limit
    linarith
  rw [if_neg same, if_neg zero]
  simp only [same, zero, false_or, ne_eq, not_false_eq_true, true_and, close]
  generalize ((a : ℚ) - b) / a = q
  split
  · rename_i small
    have decided : (Except.ok (Truth.ofBool (decide (q < tenthBound))) : Except Fault Truth) =
        .ok (.ofBool (decide (|q| < 1 / 10))) ↔ (q < tenthBound ↔ |q| < 1 / 10) := by
      rw [Except.ok.injEq, Truth.ofBool_inj, decide_eq_decide]
    rw [decided, abs_lt]
    rw [abs_lt] at small
    constructor
    · intro agrees
      by_cases below : q < tenthBound
      · exact .inl ⟨by linarith [(agrees.mp below).1], below⟩
      · refine .inr ⟨?_, small.2⟩
        by_contra less
        exact below (agrees.mpr ⟨by linarith, by linarith⟩)
    · rintro (⟨left, right⟩ | ⟨left, right⟩)
      · exact iff_of_true right ⟨by linarith, by linarith⟩
      · exact iff_of_false (by linarith) fun near => by linarith
  · rename_i large
    refine iff_of_false (by rintro ⟨⟩) ?_
    rintro (⟨left, right⟩ | ⟨left, right⟩) <;> exact large (abs_lt.mpr ⟨by linarith, by linarith⟩)

def distanceStore : Store := { empty with values := #[.number (.int 20), .number (.int 19), .number (.int 40)] }

/-- 19 is near to 20. The distance to 40 is as large as 20, and still the answer is not no. -/
theorem tenth_decides_iff_distances :
    distanceStore.approx ⟨0⟩ ⟨1⟩ = .ok .yes ∧ distanceStore.approx ⟨0⟩ ⟨2⟩ ≠ .ok .no := by
  have near := (tenth_decides_iff (s := distanceStore) (x := ⟨0⟩) (y := ⟨1⟩) (a := 20) (b := 19) rfl rfl).mpr
    (.inr (.inr (.inl (by unfold tenthBound; norm_num))))
  have far := (tenth_decides_iff (s := distanceStore) (x := ⟨0⟩) (y := ⟨2⟩) (a := 20) (b := 40) rfl rfl).not.mpr
    (by norm_num)
  rw [decide_eq_true (by norm_num)] at near
  rw [decide_eq_false (by norm_num)] at far
  exact ⟨near, far⟩

end Store

end DreamBerd
