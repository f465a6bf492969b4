import DreamBerd.Proofs.DecimalText
import DreamBerd.Proofs.Nearness

/-!
# Integers as floating point numbers

`Binary64.Whole` says that a `Float` stands for a positive integer. The `Float` nearest to a positive
integer always does, be it for another one. Its text shows the integer with a zero behind a point, or has
an exponent if there are more than sixteen digits (`exists_nearby`). Multiplying such a `Float` with a
sign and dividing it by its absolute value are exact (`Whole.sign_mul`, `Whole.div_abs`).
-/

namespace DreamBerd

namespace Binary64

variable {m n k N : Nat} {q : Int}

/-- A normal `Float` stands for the integer `n`. -/
structure Whole (m : Nat) (q : Int) (n : Nat) : Prop where
  fits : Fits m q
  normal : 2 ^ 52 ≤ m
  value : (m : ℚ) * 2 ^ q = n

theorem Whole.positive (whole : Whole m q n) : 0 < m :=
  Nat.lt_of_lt_of_le (Nat.two_pow_pos 52) whole.normal

theorem Whole.value_pos (whole : Whole m q n) : 0 < n := by
  have positive := whole.positive
  have : (0 : ℚ) < n := by
    rw [← whole.value]
    positivity
  exact_mod_cast this

/-! ## Rounding an integer -/

theorem roundsTo_self (n : Nat) : RoundsTo n n := by
  refine ⟨by linarith, by linarith, ?_⟩
  rintro (tie | tie)
  · linarith
  · linarith

namespace Rounded

variable {r : Nat}

theorem eq_of_short (rounded : Rounded N r q) (short : N < 2 ^ 53) : (r : ℚ) * 2 ^ q = N := by
  have low : q ≤ 0 := by
    rcases rounded.normal with rfl | normal
    · decide
    have less : (2 : ℚ) ^ 52 * 2 ^ q < 2 ^ 52 * 2 ^ (1 : Int) := by
      have : (N : ℚ) < 2 ^ 53 := by exact_mod_cast short
      exact normal.trans_lt (this.trans_eq (by norm_num))
    have := lt_of_zpow_lt (lt_of_mul_lt_mul_left less (by positivity))
    omega
  obtain ⟨j, rfl⟩ : ∃ j : Nat, q = -j := ⟨(-q).toNat, by omega⟩
  have quotient : (N : ℚ) / 2 ^ (-j : Int) = (N * 2 ^ j : Nat) := by
    rw [zpow_neg, div_inv_eq_mul, zpow_natCast]
    push_cast
    rfl
  have rounds := rounded.rounds
  rw [quotient] at rounds
  rw [rounds.unique (roundsTo_self _), ← quotient, div_mul_cancel₀ _ (by positivity)]

theorem exponent_pos (rounded : Rounded N r q) (long : 2 ^ 53 ≤ N) : 0 < q := by
  refine lt_of_zpow_lt ?_
  have least : (2 : ℚ) ^ 53 ≤ N := by exact_mod_cast long
  have := rounded.below
  rw [zpow_zero]
  linarith

/-- What an integer is rounded to is an integer. -/
theorem exists_eq (rounded : Rounded N r q) (positive : 0 < N) :
    ∃ n : Nat, (r : ℚ) * 2 ^ q = n ∧ 0 < n ∧ (N < 2 ^ 53 ∧ n = N ∨ 2 ^ 53 ≤ N ∧ 2 ^ 53 ≤ n) := by
  rcases Nat.lt_or_ge N (2 ^ 53) with short | long
  · exact ⟨N, rounded.eq_of_short short, positive, .inl ⟨short, rfl⟩⟩
  · have above := rounded.exponent_pos long
    have many : 2 ^ 52 ≤ r := rounded.normal_or.resolve_left fun low => by
      rw [low] at above
      exact absurd above (by decide)
    obtain ⟨j, rfl⟩ : ∃ j : Nat, q = (j + 1 : Nat) := ⟨(q - 1).toNat, by omega⟩
    have least : 2 ^ 53 ≤ r * 2 ^ (j + 1) :=
      Nat.mul_le_mul many (Nat.pow_le_pow_right two_pos (Nat.le_add_left 1 j))
    refine ⟨r * 2 ^ (j + 1), ?_, (Nat.two_pow_pos 53).trans_le least, .inr ⟨long, least⟩⟩
    rw [zpow_natCast]
    push_cast
    rfl

end Rounded

/-- The `Float` nearest to an integer stands for an integer of more than sixteen digits if this has more
than sixteen, or sixteen nines. -/
theorem exists_whole (positive : 0 < N) (small : (N : ℚ) < Rounded.limit) : ∃ m q n, Whole m q n ∧
    ofRatio false N 1 = signed false (assemble m q) ∧
    (n < 10 ^ 16 ↔ N < 10 ^ 16 - 1) ∧ (N < 2 ^ 53 ∧ n = N ∨ 2 ^ 53 ≤ N ∧ 2 ^ 53 ≤ n) := by
  obtain ⟨r, q, rounded, float⟩ := exists_rounded positive Nat.one_pos
  rw [Nat.cast_one, div_one] at rounded
  obtain ⟨m, p, fits, same, assembled⟩ := rounded.exists_fits small
  obtain ⟨n, value, some, near⟩ := rounded.exists_eq positive
  have normal : 2 ^ 52 ≤ m := fits.normal.resolve_left fun low => by
    have short : (m : ℚ) < 2 ^ 53 := by exact_mod_cast fits.short
    have least : (1 : ℚ) ≤ n := by exact_mod_cast some
    have : (m : ℚ) * 2 ^ minExponent < 2 ^ 53 * 2 ^ minExponent := by gcongr
    have : (2 : ℚ) ^ 53 * 2 ^ minExponent < 1 := by
      rw [← zpow_natCast, ← zpow_add₀ two_ne_zero]
      exact zpow_lt_one_of_neg₀ (by norm_num) (by decide)
    rw [low] at same
    linarith
  have bound : n < 10 ^ 16 ↔ N < 10 ^ 16 - 1 := by
    have midpoint :=
      rounded.lt_iff (m := 5000000000000000) (p := 1) (by decide) (by decide) (by decide) (by decide)
    rw [value, zpow_one] at midpoint
    norm_num at midpoint ⊢
    exact midpoint
  refine ⟨m, p, n, ⟨fits, normal, same.trans value⟩, ?_, bound, near⟩
  rw [float, assembled]

end Binary64

namespace Decimal

open Binary64 List

variable {num den low high m n k : Nat} {e q : Int} {d : Decimal}

/-! ## The shortest decimal of an integer -/

theorem nearest_self (positive : 0 < m) : Nearest m q (m * 2 ^ q) := by
  refine nearest_of_le le_rfl ?_
  rw [value_eq_quarters m q]
  gcongr
  exact_mod_cast lowerQuarters_lt positive

theorem climb_nonneg (hden : 0 < den) (whole : (1 : ℚ) ≤ num / den) (n : Nat) (enough : 0 ≤ e + n) :
    0 ≤ climb num den n e := by
  induction n generalizing e with
  | zero =>
    rw [climb]
    omega
  | succ n ih =>
    rw [climb]
    split
    · exact ih (by omega)
    · rename_i stops
      by_contra negative
      refine stops ((powerLe_iff hden).mpr (le_trans ?_ whole))
      exact zpow_le_one_of_nonpos₀ (by norm_num) (by omega)

theorem leading_nonneg (hnum : 0 < num) (hden : 0 < den) (whole : (1 : ℚ) ≤ num / den) :
    0 ≤ leading num den := by
  obtain ⟨-, high⟩ := ratio_bounds hnum hden
  have bits : (0 : Int) < (num.log2 : Int) - den.log2 + 1 := by
    refine lt_of_zpow_lt ?_
    rw [zpow_zero]
    exact whole.trans_lt high
  refine climb_nonneg hden whole 8 ?_
  rw [Int.fdiv_eq_ediv_of_nonneg _ (by decide)]
  omega

theorem exponent_of_ofLength? (given : surroundings m q = (num, low, high, den))
    (found : ofLength? m q n = some d) : d.exponent = leading num den - n + 1 := by
  unfold ofLength? at found
  rw [given] at found
  dsimp only at found
  split at found <;> cases found <;> rfl

theorem le_exponent_strip (n : Nat) (d : Decimal) : d.exponent ≤ (strip n d).exponent := by
  induction n generalizing d with
  | zero => exact le_rfl
  | succ n ih =>
    rw [strip]
    split
    · exact le_trans (by simp) (ih _)
    · exact le_rfl

/-- The search for a shortest decimal ends at the latest where one is known. -/
theorem shortest_eq (positive : 0 < m) (few : k < 17) (known : ofLength? m q (k + 1) = some d) :
    ∃ i ≤ k, ∃ d, ofLength? m q (i + 1) = some d ∧ shortest m q = strip 20 d := by
  unfold shortest
  rw [if_neg positive.ne', show 17 = k + 1 + (16 - k) by omega, range_add, findSome?_append]
  cases first : (range (k + 1)).findSome? fun i => ofLength? m q (i + 1) with
  | none =>
    have missed := findSome?_eq_none_iff.mp first k self_mem_range_succ
    rw [known] at missed
    cases missed
  | some d =>
    obtain ⟨i, member, found⟩ := exists_of_findSome?_eq_some first
    exact ⟨i, Nat.lt_succ_iff.mp (mem_range.mp member), d, found, rfl⟩

end Decimal

namespace Binary64.Whole

open Decimal

variable {m n k num den low high : Nat} {q : Int}

theorem exponent_le (whole : Whole m q n) (small : n < 10 ^ 16) : q ≤ 1 := by
  have least : (2 : ℚ) ^ 52 ≤ m := by exact_mod_cast whole.normal
  have bound : (2 : ℚ) ^ 52 * 2 ^ q < 2 ^ 52 * 2 ^ (2 : Int) := by
    have : (n : ℚ) < 10 ^ 16 := by exact_mod_cast small
    calc (2 : ℚ) ^ 52 * 2 ^ q ≤ m * 2 ^ q := by gcongr
      _ = n := whole.value
      _ < 2 ^ 52 * 2 ^ (2 : Int) := this.trans (by norm_num)
  have := lt_of_zpow_lt (lt_of_mul_lt_mul_left bound (by positivity))
  omega

/-- A multiple of ten between the midpoints around an integer is this integer. -/
theorem eq_of_nearest (whole : Whole m q n) (small : n < 10 ^ 16) (near : Nearest m q (10 * k : Nat)) :
    10 * k = n := by
  have unit : (0 : ℚ) < 2 ^ q := by positivity
  obtain ⟨above, below, -⟩ := near.roundsTo whole.positive
  rw [le_div_iff₀ unit, sub_mul, whole.value] at above
  rw [div_le_iff₀ unit, add_mul, whole.value] at below
  rcases (whole.exponent_le small).lt_or_eq with low | rfl
  · have width : (2 : ℚ) ^ q ≤ 1 := zpow_le_one_of_nonpos₀ (by norm_num) (by omega)
    have up : ((10 * k : Nat) : ℚ) < n + 1 := by linarith
    have down : (n : ℚ) < (10 * k : Nat) + 1 := by linarith
    have up : 10 * k < n + 1 := by exact_mod_cast up
    have down : n < 10 * k + 1 := by exact_mod_cast down
    omega
  · -- the neighbours of the integer are odd
    have even := whole.value
    rw [zpow_one] at above below even
    have up : ((10 * k : Nat) : ℚ) ≤ n + 1 := by linarith
    have down : (n : ℚ) ≤ (10 * k : Nat) + 1 := by linarith
    have up : 10 * k ≤ n + 1 := by exact_mod_cast up
    have down : n ≤ 10 * k + 1 := by exact_mod_cast down
    have even : m * 2 = n := by exact_mod_cast even
    omega

theorem ofLength?_eq (whole : Whole m q n) (given : surroundings m q = (num, low, high, den))
    (last : leading num den = k) : ofLength? m q (k + 1) = some ⟨n, 0⟩ := by
  have around := surrounds given
  have den0 : (den : ℚ) ≠ 0 := by exact_mod_cast around.positive.ne'
  have ratio : (num : ℚ) / den = n := around.value.trans whole.value
  have exact : num = n * den := by
    rw [div_eq_iff den0] at ratio
    exact_mod_cast ratio
  have scaled : scale num den 0 = (num, den) := by
    rw [scale, if_pos le_rfl]
    simp
  have half : roundHalfEven num den = n := by
    have rounds : RoundsTo ((num : ℚ) / den) _ := roundHalfEven_roundsTo around.positive
    rw [ratio] at rounds
    exact rounds.unique (roundsTo_self n)
  have down : within (m % 2 == 0) low high den n 0 = true := by
    rw [around.within_iff, zpow_zero, mul_one, ← whole.value]
    exact nearest_self whole.positive
  have place : leading num den - (k + 1 : Nat) + 1 = 0 := by omega
  unfold ofLength?
  rw [given]
  dsimp only
  rw [place, scaled]
  dsimp only
  rw [half, exact, Nat.mul_div_cancel _ around.positive, down]
  split <;> simp_all

theorem shortest_value (whole : Whole m q n) (small : n < 10 ^ 16) :
    0 ≤ (shortest m q).exponent ∧ (shortest m q).value = n := by
  rcases given : surroundings m q with ⟨num, low, high, den⟩
  have around := surrounds given
  have ratio : (num : ℚ) / den = n := around.value.trans whole.value
  have some := whole.value_pos
  have hnum : 0 < num := by
    by_contra none
    rw [Nat.eq_zero_of_not_pos none, Nat.cast_zero, zero_div] at ratio
    exact some.ne (by exact_mod_cast ratio)
  have one : (1 : ℚ) ≤ num / den := by
    rw [ratio]
    exact_mod_cast some
  obtain ⟨k, last⟩ := Int.eq_ofNat_of_zero_le (leading_nonneg hnum around.positive one)
  have few : k < 16 := by
    have most : (n : ℚ) < 10 ^ 16 := by exact_mod_cast small
    have lead : (10 : ℚ) ^ leading num den ≤ num / den := by
      refine leading_le hnum around.positive (le_trans ?_ one) ?_
      · exact zpow_le_one_of_nonpos₀ (by norm_num) (by norm_num)
      · rw [ratio]
        calc (n : ℚ) ≤ 2 ^ (54 : Int) := most.le.trans (by norm_num)
          _ ≤ 2 ^ (1999 : Int) := zpow_le_zpow_right₀ (by norm_num) (by norm_num)
    rw [last, ratio, zpow_natCast] at lead
    exact (pow_lt_pow_iff_right₀ (by norm_num)).mp (lead.trans_lt most)
  have known := whole.ofLength?_eq given last
  obtain ⟨i, early, d, found, shortest⟩ := shortest_eq whole.positive (by omega) known
  have place : d.exponent = (k - i : Nat) := by
    rw [exponent_of_ofLength? given found, last]
    push_cast
    omega
  have value : d.value = n := by
    rcases early.lt_or_eq with less | rfl
    · -- a shorter decimal is a multiple of ten
      have near := nearest_of_ofLength? found
      obtain ⟨j, zeros⟩ : ∃ j, k - i = j + 1 := ⟨k - i - 1, by omega⟩
      have tens : d.value = (10 * (d.digits * 10 ^ j) : Nat) := by
        rw [Decimal.value, place, zeros, zpow_natCast, pow_succ]
        push_cast
        ring
      rw [tens] at near ⊢
      exact_mod_cast whole.eq_of_nearest small near
    · rw [found] at known
      cases known
      simp [Decimal.value]
  rw [shortest, strip_value, value]
  refine ⟨le_trans ?_ (le_exponent_strip 20 d), rfl⟩
  omega

/-- The shortest decimal is not among the short integers if the integer is not. -/
theorem le_shortest_value (whole : Whole m q n) (large : 10 ^ 16 ≤ n) :
    10 ^ 16 ≤ (shortest m q).value := by
  have value := whole.value
  have most : (10 : ℚ) ^ 16 ≤ n := by exact_mod_cast large
  have least : (2 : ℚ) ^ 52 ≤ m := by exact_mod_cast whole.normal
  have unit : (0 : ℚ) < 2 ^ q := by positivity
  have above := (shortest_nearest whole.fits whole.positive).roundsTo whole.positive |>.above
  rw [le_div_iff₀ unit] at above
  have high : 0 < q := by
    refine lt_of_zpow_lt ?_
    have short : (m : ℚ) < 2 ^ 53 := by exact_mod_cast whole.fits.short
    rw [zpow_zero]
    nlinarith
  rcases (show 1 ≤ q from high).lt_or_eq with two | rfl
  · have four : (2 : ℚ) ^ (2 : Int) ≤ 2 ^ q := zpow_le_zpow_right₀ (by norm_num) two
    norm_num at four
    nlinarith
  rw [zpow_one] at above value
  have even : m * 2 = n := by exact_mod_cast value
  rcases large.lt_or_eq with more | least
  · have more : (10 : ℚ) ^ 16 + 1 ≤ n := by exact_mod_cast more
    linarith
  · obtain rfl : m = 5000000000000000 := by omega
    have shortest : shortest 5000000000000000 1 = ⟨1, 16⟩ := by decide +kernel
    rw [shortest]
    norm_num [Decimal.value]

end Binary64.Whole

namespace Decimal

open Binary64 List

variable {cs : List Char} {n : Nat} {d : Decimal}

/-! ## The digits of a text -/

theorem toDigits_digit {c : Char} (digit : c.isDigit = true) :
    Nat.toDigits 10 (digitsValue [c]) = [c] := by
  have all : ∀ d < 10, Nat.toDigits 10 d = [Char.ofNat (48 + d)] := by decide
  rw [Char.isDigit_iff_toNat] at digit
  have low : 48 ≤ c.toNat := digit.1
  have high : c.toNat ≤ 57 := digit.2
  have value : digitsValue [c] = c.toNat - 48 := by
    show 0 * 10 + (c.toNat - 48) = _
    omega
  rw [value, all _ (by omega), show 48 + (c.toNat - 48) = c.toNat by omega, Char.ofNat_toNat]

theorem head?_toDigits (positive : 0 < n) : (Nat.toDigits 10 n).head? ≠ some '0' := by
  induction n using Nat.strongRecOn with
  | ind n ih =>
    rw [Nat.toDigits_eq_if (by decide)]
    split
    · simp [positive.ne']
    · rw [head?_append_of_ne_nil _ Nat.toDigits_ne_nil]
      exact ih _ (by omega) (by omega)

/-- Digits without a zero in front are those of the number that they write. -/
theorem toDigits_digitsValue (digits : ∀ c ∈ cs, c.isDigit = true) (nonempty : cs ≠ [])
    (first : cs.head? ≠ some '0') : Nat.toDigits 10 (digitsValue cs) = cs := by
  induction cs using reverseRecOn with
  | nil => exact absurd rfl nonempty
  | append_singleton cs c ih =>
    have digit := digits c (by simp)
    have small : digitsValue [c] < 10 := digitsValue_lt (by simpa using digit)
    by_cases empty : cs = []
    · rw [empty]
      exact toDigits_digit digit
    rw [head?_append_of_ne_nil _ empty] at first
    have front := ih (fun d member => digits d (mem_append_left _ member)) empty first
    have positive : 0 < digitsValue cs := by
      by_contra zero
      rw [Nat.eq_zero_of_not_pos zero] at front
      exact first (by rw [← front]; rfl)
    rw [digitsValue_append, Nat.mul_comm]
    exact (Nat.toDigits_append_toDigits (by decide) positive small).symm.trans
      (by rw [front, toDigits_digit digit])

theorem toDigits_mul_pow (positive : 0 < n) (k : Nat) :
    Nat.toDigits 10 (n * 10 ^ k) = Nat.toDigits 10 n ++ replicate k '0' := by
  induction k with
  | zero => simp
  | succ k ih =>
    have next :=
      Nat.toDigits_append_toDigits (b := 10) (n := n * 10 ^ k) (d := 0) (by decide) (by positivity)
        (by decide)
    rw [Nat.add_zero, ih, Nat.mul_left_comm, Nat.mul_comm 10, ← Nat.pow_succ] at next
    rw [← next, replicate_succ', ← append_assoc]
    rfl

/-- What is left of a text as digits. -/
def shown (s : String) : List Char := s.toList.filter fun c => c != '.' && c != '-'

theorem shown_append (s t : String) : shown (s ++ t) = shown s ++ shown t := by
  rw [shown, String.toList_append, filter_append]
  rfl

theorem shown_ofList (digits : ∀ c ∈ cs, c.isDigit = true) : shown (String.ofList cs) = cs := by
  rw [shown, String.toList_ofList, filter_eq_self]
  intro c member
  have digit := digits c member
  rw [Bool.and_eq_true, bne_iff_ne, bne_iff_ne]
  constructor <;> rintro rfl <;> cases digit

theorem shown_mantissa (digits : ∀ c ∈ cs, c.isDigit = true) : shown (mantissa cs) = cs := by
  match cs with
  | [] => rfl
  | [c] => exact shown_ofList digits
  | c :: d :: cs =>
    have point : mantissa (c :: d :: cs) = String.ofList [c] ++ "." ++ String.ofList (d :: cs) := by
      show String.ofList (c :: '.' :: d :: cs) = _
      rw [← String.toList_inj]
      simp
    rw [point, shown_append, shown_append, shown_ofList (by simpa using digits c (by simp)),
      shown_ofList fun x member => digits x (mem_cons_of_mem c member)]
    rfl

theorem shown_sign (negative : Bool) : shown (if negative then "-" else "") = [] := by
  cases negative <;> rfl

theorem length_toString (n : Nat) : (toString n).length = (Nat.toDigits 10 n).length := by
  rw [Nat.toString_eq_ofList_toDigits, String.length_ofList]

theorem shown_exponentText {e : Int} (large : 10 ≤ e) :
    shown (exponentText e) = '+' :: Nat.toDigits 10 e.natAbs := by
  have long : ¬(toString e.natAbs).length < 2 := by
    rw [length_toString, Nat.lt_succ_iff, Nat.length_toDigits_le_iff (by decide) (by decide)]
    omega
  unfold exponentText
  dsimp only
  rw [if_neg (by omega), if_neg long, shown_append, Nat.toString_eq_ofList_toDigits,
    shown_ofList fun c => isDigit_toDigits]
  rfl

theorem digits_pos (positive : 0 < d.value) : 0 < d.digits := by
  refine Nat.pos_of_ne_zero fun zero => ?_
  rw [value, zero, Nat.cast_zero, zero_mul] at positive
  exact lt_irrefl 0 positive

/-- The point of a decimal stands behind its digits and zeros. -/
theorem shown_text_short (whole : 0 ≤ d.exponent) (value : d.value = n) (positive : 0 < n)
    (small : n < 10 ^ 16) :
    shown d.text = Nat.toDigits 10 n ++ ['0'] := by
  have some : 0 < d.digits := digits_pos (by rw [value]; exact_mod_cast positive)
  obtain ⟨k, exponent⟩ := Int.eq_ofNat_of_zero_le whole
  have product : d.digits * 10 ^ k = n := by
    rw [Decimal.value, exponent, zpow_natCast] at value
    exact_mod_cast value
  have digits := toDigits_mul_pow some k
  rw [product] at digits
  have count : (Nat.toDigits 10 n).length ≤ 16 :=
    (Nat.length_toDigits_le_iff (by decide) (by decide)).mpr small
  rw [digits, length_append, length_replicate] at count
  have nonzero := Nat.length_toDigits_pos (b := 10) (n := d.digits)
  have length := length_toString d.digits
  have written : d.text = toString d.digits ++ zeros k ++ ".0" := by
    unfold Decimal.text
    dsimp only
    rw [if_neg some.ne', if_pos (by omega), if_neg (by omega), if_pos (by omega), exponent, length]
    congr 3
    omega
  rw [written, shown_append, shown_append, Nat.toString_eq_ofList_toDigits,
    shown_ofList fun c => isDigit_toDigits, zeros, shown_ofList (isDigit_zeros k), digits]
  rfl

/-- Digits, and an exponent behind them. -/
def Scientific (cs : List Char) : Prop :=
  ∃ d e, cs = Nat.toDigits 10 d ++ 'e' :: '+' :: Nat.toDigits 10 e

theorem Scientific.chars (scientific : Scientific cs) :
    ∀ c ∈ cs, c.isDigit = true ∨ c = 'e' ∨ c = '+' := by
  obtain ⟨d, e, rfl⟩ := scientific
  simp only [mem_append, mem_cons]
  rintro c (front | letter | sign | back)
  · exact .inl (isDigit_toDigits front)
  · exact .inr (.inl letter)
  · exact .inr (.inr sign)
  · exact .inl (isDigit_toDigits back)

theorem shown_text_long (large : 10 ^ 16 ≤ d.value) : Scientific (shown d.text) := by
  have some : 0 < d.digits := digits_pos (lt_of_lt_of_le (by norm_num) large)
  have length := length_toString d.digits
  have point : 16 < ((Nat.toDigits 10 d.digits).length : Int) + d.exponent := by
    refine (zpow_lt_zpow_iff_right₀ (show (1 : ℚ) < 10 by norm_num)).mp ?_
    have bound : digitsValue (Nat.toDigits 10 d.digits) < _ := digitsValue_lt fun c => isDigit_toDigits
    rw [digitsValue_toDigits] at bound
    have bound : (d.digits : ℚ) < 10 ^ (Nat.toDigits 10 d.digits).length := by exact_mod_cast bound
    rw [zpow_add₀ (by norm_num), zpow_natCast]
    calc (10 : ℚ) ^ (16 : Int) ≤ d.digits * 10 ^ d.exponent := by exact_mod_cast large
      _ < _ := by gcongr
  have written : d.text = mantissa (Nat.toDigits 10 d.digits) ++ "e" ++
      exponentText ((Nat.toDigits 10 d.digits).length + d.exponent - 1) := by
    unfold Decimal.text
    dsimp only
    rw [if_neg some.ne', length, if_neg (by omega), Nat.toString_eq_ofList_toDigits,
      String.toList_ofList]
    rfl
  refine ⟨d.digits, ((Nat.toDigits 10 d.digits).length + d.exponent - 1 : Int).natAbs, ?_⟩
  rw [written, shown_append, shown_append, shown_mantissa fun c => isDigit_toDigits,
    shown_exponentText (by omega)]
  simp [shown]

/-- The digits of the `Float` nearest to `N`: those of an integer with a zero behind them, or some with an
exponent. -/
inductive Nearby (N : Nat) (cs : List Char) : Prop
  | digits {n : Nat} (positive : 0 < n) (few : N < 10 ^ 16 - 1) (less : n < 10 ^ 16)
      (near : N < 2 ^ 53 ∧ n = N ∨ 2 ^ 53 ≤ N ∧ 2 ^ 53 ≤ n) (same : cs = Nat.toDigits 10 n ++ ['0'])
  | scientific (many : 10 ^ 16 - 1 ≤ N) (scientific : Scientific cs)

theorem exists_nearby {N : Nat} (positive : 0 < N) (small : (N : ℚ) < Rounded.limit) :
    ∃ m q n, Whole m q n ∧
    ofRatio false N 1 = signed false (assemble m q) ∧ Nearby N (shown (shortest m q).text) := by
  obtain ⟨m, q, n, whole, float, short, near⟩ := exists_whole positive small
  refine ⟨m, q, n, whole, float, ?_⟩
  by_cases few : N < 10 ^ 16 - 1
  · have few' := short.mpr few
    obtain ⟨exponent, value⟩ := whole.shortest_value few'
    exact .digits whole.value_pos few few' near (shown_text_short exponent value whole.value_pos few')
  · exact .scientific (not_lt.mp few)
      (shown_text_long (whole.le_shortest_value (not_lt.mp (mt short.mp few))))

end Decimal

namespace Binary64

open Float.Model Float.Model.UnpackedFloat

variable {x : Float} {m n k : Nat} {q : Int} {negative : Bool} {s : Sign}

/-! ## Signs -/

/-- What a normal number is taken apart into. -/
theorem Whole.unpack_signed (whole : Whole m q n) : (signed negative (assemble m q)).toModel.unpack =
    .finite (if negative then .negative else .positive) m q whole.positive := by
  obtain ⟨b, model, bits⟩ : ∃ b : BitVec Format.binary64.numBits,
      (signed negative (assemble m q)).toModel.unpack = UnpackedFloat.unpack Format.binary64 b ∧
        b.toNat = (signed negative (assemble m q)).toBits.toNat := ⟨_, rfl, rfl⟩
  have normal := whole.normal
  rw [toBits_signed (toBits_assemble_le whole.fits), toBits_assemble whole.fits,
    show (if m < 2 ^ 52 then _ else _) = _ from if_neg (not_lt.mpr normal)] at bits
  obtain ⟨short, least, most, -⟩ := whole.fits
  unfold minExponent maxExponent at *
  have high : (if negative then 2 ^ 63 else 0) = negative.toNat * 2 ^ 63 := by cases negative <;> rfl
  rw [high] at bits
  have bit := negative.toNat_le
  have exponent : (unpackExponent b).toNat = (q + 1075).toNat := by
    rw [toNat_unpackExponent]
    omega
  have mantissa : (unpackMantissa b).toNat = m - 2 ^ 52 := by
    rw [toNat_unpackMantissa]
    omega
  have sign : Sign.ofBitVec (unpackSign b) = if negative then .negative else .positive := by
    have top := toNat_sign b
    have same : (Sign.ofBitVec (unpackSign b)).toBitVec.toNat = negative.toNat := by omega
    revert same
    cases negative <;> cases Sign.ofBitVec (unpackSign b) <;> first | exact fun _ => rfl | exact nofun
  rw [model]
  fun_cases UnpackedFloat.unpack Format.binary64 b with
  | case1 _ _ _ _ full | case2 _ _ full =>
    have : (unpackExponent b).toNat = 2047 := congrArg BitVec.toNat full
    omega
  | case3 _ _ _ _ _ none | case4 _ _ _ _ _ _ none =>
    have : (unpackExponent b).toNat = 0 := congrArg BitVec.toNat none
    omega
  | case5 mv _ i =>
    have place : i = q := by
      show ((unpackExponent b).toNat : Int) - 1075 = q
      omega
    have field : mv.toNat = m - 2 ^ 52 := mantissa
    have significand : (1#1 ++ mv).toNat = m := by
      rw [BitVec.toNat_append, ← Nat.shiftLeft_add_eq_or_of_lt mv.isLt, Nat.shiftLeft_eq, field]
      show 1 * 2 ^ 52 + (m - 2 ^ 52) = m
      omega
    simp only [significand, place]
    congr 1

theorem Whole.unpack (whole : Whole m q n) :
    (assemble m q).toModel.unpack = .finite .positive m q whole.positive := by
  have unpacked : (signed false (assemble m q)).toModel.unpack = _ := whole.unpack_signed
  rwa [signed, if_neg Bool.false_ne_true] at unpacked

theorem unpack_one : (signed negative 1.0).toModel.unpack =
    .finite (if negative then .negative else .positive) (2 ^ 52) (-52) (Nat.two_pow_pos 52) := by
  cases negative <;> rfl

/-- A `Float` is determined by what it is taken apart into. -/
theorem eq_of_unpack {u : UnpackedFloat} (same : u = x.toModel.unpack) :
    Float.ofModel (Float.Model.pack u) = x := by
  rw [same]
  exact Float.ofBits_toBits x

theorem shiftRight_mul (m k : Nat) :
    ExtendedMantissa.mk (2 ^ k * m) false false >>> k = ExtendedMantissa.mk m false false := by
  induction k generalizing m with
  | zero =>
    rw [Nat.pow_zero, Nat.one_mul]
    rfl
  | succ k ih =>
    have step : ∀ em : ExtendedMantissa, em >>> (k + 1) = (em >>> k).shiftRightOne := fun _ => rfl
    rw [step, Nat.pow_succ, Nat.mul_assoc, ih, ExtendedMantissa.shiftRightOne]
    simp

/-- Rounding a product with one changes nothing. -/
theorem Whole.roundWithAccuracy_mul (whole : Whole m q n) :
    roundWithAccuracy Format.binary64 s (2 ^ 52 * m) (-52 + q) .exact =
      .finite s m q whole.positive := by
  have shift (m : Nat) (e : Int) : shiftToTargetExponent Format.binary64 m e .exact =
      (ExtendedMantissa.mk m false false >>> (max (m.log2 + 1 + e - 53) (-1074) - e).toNat,
        e + (max (m.log2 + 1 + e - 53) (-1074) - e).toNat) := rfl
  have least := whole.fits.least
  unfold minExponent at least
  have log : m.log2 = 52 := (Nat.log2_eq_iff whole.positive.ne').mpr ⟨whole.normal, whole.fits.short⟩
  have double : (2 ^ 52 * m).log2 = 104 := by
    have low := whole.normal
    have high := whole.fits.short
    rw [Nat.log2_eq_iff (by omega)]
    omega
  have first :
      (max (((2 ^ 52 * m).log2 : Int) + 1 + (-52 + q) - 53) (-1074) - (-52 + q)).toNat = 52 := by
    rw [double]
    omega
  have second : (max ((m.log2 : Int) + 1 + q - 53) (-1074) - q).toNat = 0 := by omega
  rw [roundWithAccuracy, shift, first, shiftRight_mul]
  dsimp only
  have significand : ExtendedMantissa.roundedMantissa ⟨m, false, false⟩ = m := rfl
  have exponent : -52 + q + (52 : Nat) = q := by omega
  rw [significand, exponent, shift, second]
  show (if h : m = 0 then _ else _) = _
  rw [dif_neg whole.positive.ne']
  congr 1
  exact Int.add_zero q

theorem Whole.sign_mul (whole : Whole m q n) :
    signed negative 1.0 * assemble m q = signed negative (assemble m q) := by
  refine eq_of_unpack (u := UnpackedFloat.mul Format.binary64 _ _) ?_
  rw [unpack_one, whole.unpack, whole.unpack_signed, UnpackedFloat.mul, whole.roundWithAccuracy_mul]
  cases negative <;> rfl

theorem Whole.abs_signed (whole : Whole m q n) :
    (signed negative (assemble m q)).abs = assemble m q := by
  refine eq_of_unpack (u := UnpackedFloat.abs _) ?_
  rw [whole.unpack, whole.unpack_signed]
  rfl

theorem divCore_self (positive : 0 < m) : divCore Format.binary64 m q m q = (2 ^ 53, -53, .exact) := by
  rw [divCore]
  simp only [Int.sub_self]
  show (m <<< 53 / m, (-53 : Int), accuracyOfFraction (m <<< 53 % m) m) = _
  rw [Nat.shiftLeft_eq, Nat.mul_div_cancel_left _ positive, Nat.mul_mod_right]
  rfl

theorem Whole.div_abs (whole : Whole m q n) :
    signed negative (assemble m q) / (signed negative (assemble m q)).abs = signed negative 1.0 := by
  rw [whole.abs_signed]
  refine eq_of_unpack (u := UnpackedFloat.div Format.binary64 _ _) ?_
  rw [whole.unpack, whole.unpack_signed, unpack_one, UnpackedFloat.div, divCore_self whole.positive]
  cases negative <;> rfl

end Binary64

end DreamBerd
