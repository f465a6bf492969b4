import DreamBerd.Number
import DreamBerd.Proofs.ShortestDecimal

/-!
# Reading numbers back

The text of a number is read back as the same number: an integer that is not too long to be written,
and every `Float` other than the one that is no number.
-/

namespace DreamBerd.Decimal

open List

open Binary64

variable {cs ds rest : List Char} {e q : Int} {m n : Nat} {c : Char} {negative : Bool} {s : String}
  {v : ℚ}

/-! ## Characters of numerals -/

/-- The characters that numbers are written with: no white space, no underscore, nothing beyond
ASCII. -/
def isNumeral (c : Char) : Bool := decide (c.toNat < 128) && !Text.isPlainBlank c && c != '_'

theorem isNumeral_of_isDigit (digit : c.isDigit = true) : isNumeral c = true := by
  rw [Char.isDigit_iff_toNat] at digit
  have low : 48 ≤ c.toNat := digit.1
  have high : c.toNat ≤ 57 := digit.2
  have noBlank : c ≠ ' ' := by
    rintro rfl
    exact absurd low (by decide)
  have noUnderscore : c ≠ '_' := by
    rintro rfl
    exact absurd high (by decide)
  simp [isNumeral, Text.isPlainBlank, noBlank, noUnderscore]
  omega

theorem trimChars_eq {p : Char → Bool} (absent : ∀ c ∈ cs, p c = false) : Text.trimChars p cs = cs := by
  have dropNone (ds : List Char) (none : ∀ c ∈ ds, p c = false) : ds.dropWhile p = ds := by
    cases ds with
    | nil => rfl
    | cons d ds => exact dropWhile_cons_of_neg (by simp [none d])
  unfold Text.trimChars
  rw [dropNone cs absent, dropNone cs.reverse (by simpa using absent), reverse_reverse]

theorem dropUnderscores_eq {previous : Char} (before : previous ≠ '_') (none : '_' ∉ cs) :
    dropUnderscores previous cs = some cs := by
  induction cs generalizing previous with
  | nil => simp [dropUnderscores, before]
  | cons c cs ih =>
    rw [mem_cons, not_or] at none
    have other : c ≠ '_' := Ne.symm none.1
    simp [dropUnderscores, other, before, ih other none.2]

theorem normalized_eq (numeral : ∀ c ∈ s.toList, isNumeral c = true) : normalized s = s.toList := by
  simp only [isNumeral, Bool.and_eq_true, Bool.not_eq_true', decide_eq_true_eq] at numeral
  have plain : plainChars s.toList = s.toList := by
    rw [plainChars, if_pos]
    exact all_eq_true.mpr fun c member => decide_eq_true (numeral c member).1.1
  unfold normalized
  rw [plain, trimChars_eq fun c member => (numeral c member).1.2]

theorem dropUnderscores_normalized (numeral : ∀ c ∈ s.toList, isNumeral c = true) :
    dropUnderscores ' ' (normalized s) = some s.toList := by
  rw [normalized_eq numeral]
  apply dropUnderscores_eq (by decide)
  intro member
  exact absurd (numeral _ member) (by decide)

/-! ## Values of digits -/

theorem digitsValue_eq (cs : List Char) : digitsValue cs = Nat.ofDigitChars 10 cs 0 := by
  unfold digitsValue Nat.ofDigitChars
  congr 1
  funext n c
  rw [Nat.mul_comm]
  rfl

theorem digitsValue_append (cs ds : List Char) :
    digitsValue (cs ++ ds) = digitsValue cs * 10 ^ ds.length + digitsValue ds := by
  rw [digitsValue_eq, digitsValue_eq, digitsValue_eq, Nat.ofDigitChars_append,
    Nat.ofDigitChars_eq_ofDigitChars_zero, Nat.mul_comm]

theorem digitsValue_zeros (n : Nat) : digitsValue (List.replicate n '0') = 0 := by
  rw [digitsValue_eq, Nat.ofDigitChars_replicate_zero, Nat.mul_zero]

theorem digitsValue_toDigits (n : Nat) : digitsValue (Nat.toDigits 10 n) = n := by
  rw [digitsValue_eq, Nat.ofDigitChars_ten_toDigits]

theorem digitsValue_lt (digits : ∀ c ∈ cs, c.isDigit = true) : digitsValue cs < 10 ^ cs.length := by
  induction cs with
  | nil => exact Nat.one_pos
  | cons c cs ih =>
    have digit := digits c mem_cons_self
    rw [Char.isDigit_iff_toNat] at digit
    have high : c.toNat ≤ 57 := digit.2
    have rest := ih (forall_mem_cons.mp digits).2
    have first : digitsValue [c] ≤ 9 := by
      show 0 * 10 + (c.toNat - 48) ≤ 9
      omega
    rw [← singleton_append, digitsValue_append, length_append, length_singleton,
      Nat.pow_add]
    have := Nat.mul_le_mul_right (10 ^ cs.length) first
    omega

theorem le_digitsValue (digits : ∀ c ∈ cs, c.isDigit = true) (positive : 0 < digitsValue cs) :
    10 ^ ((cs.dropWhile (· == '0')).length - 1) ≤ digitsValue cs ∧
      digitsValue cs < 10 ^ (cs.dropWhile (· == '0')).length := by
  induction cs with
  | nil => exact absurd positive (by decide)
  | cons c cs ih =>
    have digit := digits c mem_cons_self
    have rest : ∀ d ∈ cs, d.isDigit = true := (forall_mem_cons.mp digits).2
    by_cases zero : c = '0'
    · have same : digitsValue (c :: cs) = digitsValue cs := by
        rw [zero]
        rfl
      rw [same] at positive ⊢
      rw [dropWhile_cons_of_pos (by simp [zero])]
      exact ih rest positive
    · rw [dropWhile_cons_of_neg (by simp [zero])]
      refine ⟨?_, digitsValue_lt digits⟩
      rw [Char.isDigit_iff_toNat] at digit
      have low : 48 ≤ c.toNat := digit.1
      have other : c.toNat ≠ 48 := fun same => zero (Char.toNat_inj.mp same)
      have first : 1 ≤ digitsValue [c] := by
        show 1 ≤ 0 * 10 + (c.toNat - 48)
        omega
      rw [← singleton_append, digitsValue_append]
      have := Nat.mul_le_mul_right (10 ^ cs.length) first
      simp only [length_append, length_singleton, Nat.add_sub_cancel_left]
      omega

/-! ## Integers -/

theorem isDigit_toDigits (member : c ∈ Nat.toDigits 10 n) : c.isDigit = true :=
  Nat.isDigit_of_mem_toDigits (by decide) (by decide) member

/-- A text that starts with a digit, behind a sign if it is negative. -/
structure Signed (s : String) (negative : Bool) (cs : List Char) : Prop where
  chars : s.toList = (if negative then ['-'] else []) ++ cs
  digit : ∀ c ∈ cs.head?, c.isDigit = true
  numeral : ∀ c ∈ cs, isNumeral c = true

theorem Signed.isNumeral (signed : Signed s negative cs) : ∀ c ∈ s.toList, isNumeral c = true := by
  intro c member
  rw [signed.chars, mem_append] at member
  rcases member with sign | rest
  · split at sign
    · rw [mem_singleton.mp sign]
      rfl
    · cases sign
  · exact signed.numeral c rest

theorem Signed.takeSign_eq (signed : Signed s negative cs) : takeSign s.toList = (negative, cs) := by
  have digit := signed.digit
  rw [signed.chars]
  cases negative with
  | true => rfl
  | false =>
    show takeSign cs = _
    unfold takeSign
    split
    · exact absurd (digit '-' rfl) (by decide)
    · exact absurd (digit '+' rfl) (by decide)
    · rfl

theorem toList_toString_int (n : Int) :
    (toString n).toList = (if n < 0 then ['-'] else []) ++ Nat.toDigits 10 n.natAbs := by
  cases n with
  | _ => rw [Int.toString_eq_repr, Int.repr_eq_if]; simp

theorem readInt?_eq (chars : s.toList = (if negative then ['-'] else []) ++ cs)
    (digits : ∀ c ∈ cs, c.isDigit = true) (nonempty : cs ≠ []) (short : cs.length ≤ maxDigits) :
    readInt? s = some (if negative then -(digitsValue cs : Int) else digitsValue cs) := by
  have signed : Signed s negative cs :=
    ⟨chars, fun c first => digits c (mem_of_mem_head? first), fun c member => isNumeral_of_isDigit (digits c member)⟩
  unfold readInt?
  rw [dropUnderscores_normalized signed.isNumeral]
  simp only [Option.bind_eq_bind, Option.bind_some, signed.takeSign_eq]
  rw [if_neg]
  simp only [Bool.or_eq_true, not_or, decide_eq_true_eq]
  refine ⟨⟨by simpa using nonempty, ?_⟩, by omega⟩
  simpa using digits

theorem readInt?_toString {n : Int} (short : n.natAbs < 10 ^ maxDigits) :
    readInt? (toString n) = some n := by
  have count : (Nat.toDigits 10 n.natAbs).length ≤ maxDigits :=
    (Nat.length_toDigits_le_iff (by decide) (by decide)).mpr short
  have chars : (toString n).toList = (if decide (n < 0) then ['-'] else []) ++ Nat.toDigits 10 n.natAbs := by
    rw [toList_toString_int]
    simp
  rw [readInt?_eq chars (fun c => isDigit_toDigits) Nat.toDigits_ne_nil count, digitsValue_toDigits,
    Option.some.injEq]
  simp only [decide_eq_true_eq]
  omega

/-! ## Decimals -/

theorem nearest_lt (fits : Fits m q) (near : Nearest m q v) : v < 10 ^ (400 : Int) := by
  have short : (m : ℚ) + 1 / 2 ≤ 2 ^ 53 := by
    have : m + 1 ≤ 2 ^ 53 := fits.short
    have : (m : ℚ) + 1 ≤ 2 ^ 53 := by exact_mod_cast this
    linarith
  calc v = v / 2 ^ q * 2 ^ q := (div_mul_cancel₀ v (by positivity)).symm
    _ ≤ 2 ^ 53 * 2 ^ q := by
        gcongr
        exact near.div_le.trans short
    _ ≤ 2 ^ 53 * 2 ^ (971 : Int) := by
        gcongr
        · norm_num
        · exact fits.most
    _ < 10 ^ (400 : Int) := by
        have : 2 ^ 53 * 2 ^ 971 < 10 ^ 400 := by decide +kernel
        exact_mod_cast this

theorem lt_nearest (fits : Fits m q) (positive : 0 < m) (near : Nearest m q v) :
    (10 : ℚ) ^ (-400 : Int) < v := by
  have quarters : (2 : ℚ) ≤ lowerQuarters m q := by
    have : 2 ≤ lowerQuarters m q := by
      unfold lowerQuarters
      split <;> omega
    exact_mod_cast this
  calc (10 : ℚ) ^ (-400 : Int) < 2 * 2 ^ (-1076 : Int) := by
        have : 1 * 2 ^ 1076 < 2 * 10 ^ 400 := by decide +kernel
        rw [zpow_neg, zpow_neg, inv_eq_one_div, ← div_eq_mul_inv,
          div_lt_div_iff₀ (by positivity) (by positivity)]
        exact_mod_cast this
    _ ≤ lowerQuarters m q * 2 ^ (q - 2) := by
        have least := fits.least
        unfold minExponent at least
        gcongr
        · norm_num
        · omega
    _ ≤ v := near.above

theorem pos_of_nearest (fits : Fits m q) (positive : 0 < m) (near : Nearest m q (n * 10 ^ e)) :
    0 < n := by
  have low := lt_nearest fits positive near
  contrapose! low
  rw [Nat.le_zero.mp low, Nat.cast_zero, zero_mul]
  positivity

theorem toFloat_eq {digits count : Nat} {exponent : Int} (fits : Fits m q) (positive : 0 < m)
    (near : Nearest m q (digits * 10 ^ exponent)) (least : 10 ^ (count - 1) ≤ digits)
    (most : digits < 10 ^ count) :
    toFloat negative digits exponent count = signed negative (assemble m q) := by
  have some : digits ≠ 0 := by
    have : 0 < 10 ^ (count - 1) := by positivity
    omega
  have notLarge : ¬(count : Int) + exponent > 400 := by
    intro large
    have low : (10 : ℚ) ^ (400 : Int) ≤ digits * 10 ^ exponent := by
      calc (10 : ℚ) ^ (400 : Int) ≤ 10 ^ (((count - 1 : Nat) : Int) + exponent) :=
            zpow_le_zpow_right₀ (by norm_num) (by omega)
        _ = 10 ^ (count - 1) * 10 ^ exponent := by
            rw [zpow_add₀ (by norm_num), zpow_natCast]
        _ ≤ digits * 10 ^ exponent := by
            have : (10 : ℚ) ^ (count - 1) ≤ digits := by exact_mod_cast least
            gcongr
    have := nearest_lt fits near
    linarith
  have notSmall : ¬(count : Int) + exponent < -400 := by
    intro small
    have high : (digits : ℚ) * 10 ^ exponent ≤ 10 ^ (-400 : Int) := by
      calc (digits : ℚ) * 10 ^ exponent ≤ 10 ^ count * 10 ^ exponent := by
            have : (digits : ℚ) ≤ 10 ^ count := by exact_mod_cast most.le
            gcongr
        _ = 10 ^ ((count : Int) + exponent) := by rw [zpow_add₀ (by norm_num), zpow_natCast]
        _ ≤ 10 ^ (-400 : Int) := zpow_le_zpow_right₀ (by norm_num) (by omega)
    have := lt_nearest fits positive near
    linarith
  unfold toFloat
  simp only [Nat.pow_eq]
  rw [if_neg some, if_neg notLarge, if_neg notSmall]
  split
  · rename_i whole
    obtain ⟨k, rfl⟩ := Int.eq_ofNat_of_zero_le whole
    apply ofRatio_eq fits positive Nat.one_pos
    simpa using near
  · obtain ⟨k, rfl⟩ : ∃ k : Nat, exponent = -k := ⟨(-exponent).toNat, by omega⟩
    apply ofRatio_eq fits positive (by positivity)
    simpa [div_eq_mul_inv] using near

def EndsDigits (rest : List Char) : Prop := ∀ c ∈ rest.head?, c.isDigit = false

theorem endsDigits_nil : EndsDigits [] := by
  intro c none
  cases none

theorem takeWhile_digits (digits : ∀ c ∈ cs, c.isDigit = true) (ends : EndsDigits rest) :
    (cs ++ rest).takeWhile Char.isDigit = cs := by
  rw [takeWhile_append_of_pos digits]
  cases rest with
  | nil => simp
  | cons c cs => simp [ends c rfl]

theorem dropWhile_digits (digits : ∀ c ∈ cs, c.isDigit = true) (ends : EndsDigits rest) :
    (cs ++ rest).dropWhile Char.isDigit = rest := by
  rw [dropWhile_append_of_pos digits]
  cases rest with
  | nil => rfl
  | cons c cs => simp [ends c rfl]

inductive Writes : List Char → List Char → Int → Prop
  | point {whole part rest : List Char} {e : Int} (digits : ∀ c ∈ whole ++ part, c.isDigit = true)
    (some : whole ≠ []) (ends : EndsDigits rest) (exponent : readExponent? rest = .some e) :
    Writes (whole ++ '.' :: (part ++ rest)) (whole ++ part) (e - part.length)
  | plain {whole rest : List Char} {e : Int} (digits : ∀ c ∈ whole, c.isDigit = true)
    (some : whole ≠ []) (ends : EndsDigits rest) (noPoint : rest.head? ≠ .some '.')
    (exponent : readExponent? rest = .some e) : Writes (whole ++ rest) whole e

theorem readUnsigned?_writes (writes : Writes cs ds e) :
    readUnsigned? negative cs = some (toFloat negative (digitsValue ds) e
      (ds.dropWhile (· == '0')).length) := by
  cases writes with
  | @point whole part rest e digits some ends exponent =>
    have front : ∀ c ∈ whole, c.isDigit = true := fun c h => digits c (mem_append_left _ h)
    have back : ∀ c ∈ part, c.isDigit = true := fun c h => digits c (mem_append_right _ h)
    have stop : EndsDigits ('.' :: (part ++ rest)) := by
      intro c first
      cases first
      rfl
    have filled : whole.isEmpty = false := by simpa using some
    unfold readUnsigned?
    simp only [takeWhile_digits front stop, dropWhile_digits front stop, takeWhile_digits back ends,
      dropWhile_digits back ends, filled, exponent]
    simp
  | @plain _ rest _ digits some ends noPoint exponent =>
    have filled : ds.isEmpty = false := by simpa using some
    unfold readUnsigned?
    simp only [takeWhile_digits digits ends, dropWhile_digits digits ends]
    split
    · exact absurd rfl noPoint
    · simp [filled, exponent]

theorem Writes.isDigit (writes : Writes cs ds e) : ∀ c ∈ ds, c.isDigit = true := by
  cases writes with
  | point digits _ _ _ | plain digits _ _ _ _ => exact digits

theorem readUnsigned?_nearest (fits : Fits m q) (positive : 0 < m) (writes : Writes cs ds e)
    (near : Nearest m q (digitsValue ds * 10 ^ e)) :
    readUnsigned? negative cs = some (signed negative (assemble m q)) := by
  obtain ⟨least, most⟩ := le_digitsValue writes.isDigit (pos_of_nearest fits positive near)
  rw [readUnsigned?_writes writes, toFloat_eq fits positive near least most]

/-! ## The text of a decimal -/

theorem toList_zeros (n : Nat) : (zeros n).toList = List.replicate n '0' := by
  rw [zeros, String.toList_ofList]

theorem isDigit_append (front : ∀ c ∈ cs, c.isDigit = true) (back : ∀ c ∈ ds, c.isDigit = true) :
    ∀ c ∈ cs ++ ds, c.isDigit = true := by
  exact forall_mem_append.mpr ⟨front, back⟩

theorem isDigit_zeros (n : Nat) : ∀ c ∈ List.replicate n '0', c.isDigit = true := by
  intro c member
  rw [eq_of_mem_replicate member]
  rfl

theorem toList_two (n : Nat) : ∃ k,
    (if (toString n).length < 2 then "0" ++ toString n else toString n).toList =
      List.replicate k '0' ++ Nat.toDigits 10 n := by
  have plain : (toString n).toList = Nat.toDigits 10 n := Nat.toList_repr
  split
  · exact ⟨1, by rw [String.toList_append, plain]; rfl⟩
  · exact ⟨0, by rw [plain]; rfl⟩

theorem readExponent?_exponentText (e : Int) :
    readExponent? ('e' :: (exponentText e).toList) = some e := by
  obtain ⟨k, two⟩ := toList_two e.natAbs
  have value : digitsValue (List.replicate k '0' ++ Nat.toDigits 10 e.natAbs) = e.natAbs := by
    rw [digitsValue_append, digitsValue_zeros, digitsValue_toDigits, Nat.zero_mul, Nat.zero_add]
  have digit := isDigit_append (isDigit_zeros k) fun c => isDigit_toDigits (n := e.natAbs)
  have filled : (List.replicate k '0' ++ Nat.toDigits 10 e.natAbs).isEmpty = false := by
    simp
  have sign : takeSign (exponentText e).toList =
      (decide (e < 0), List.replicate k '0' ++ Nat.toDigits 10 e.natAbs) := by
    unfold exponentText
    rw [String.toList_append, two]
    split <;> simp [takeSign, *]
  generalize List.replicate k '0' ++ Nat.toDigits 10 e.natAbs = cs at value digit filled sign
  simp only [readExponent?, beq_self_eq_true, Bool.true_or, if_true, sign, filled]
  rw [if_neg (by simpa using digit)]
  simp only [decide_eq_true_eq, Option.some.injEq]
  omega

def WritesValue (cs : List Char) (v : ℚ) : Prop :=
  ∃ ds e, Writes cs ds e ∧ (digitsValue ds : ℚ) * 10 ^ e = v

theorem writes_fraction {whole part : List Char} (digits : ∀ c ∈ whole ++ part, c.isDigit = true)
    (some : whole ≠ []) :
    WritesValue (whole ++ '.' :: part) (digitsValue (whole ++ part) * 10 ^ (-part.length : Int)) := by
  have writes := Writes.point digits some endsDigits_nil rfl
  rw [append_nil, zero_sub] at writes
  exact ⟨_, _, writes, rfl⟩

theorem writes_behind (digits : ∀ c ∈ ds, c.isDigit = true) (k : Nat) :
    WritesValue ("0." ++ zeros k ++ String.ofList ds).toList
      (digitsValue ds * 10 ^ (-((k : Int) + ds.length))) := by
  have writes := writes_fraction (isDigit_append (isDigit_zeros 1)
    (isDigit_append (isDigit_zeros k) digits)) (by simp)
  have chars : ("0." ++ zeros k ++ String.ofList ds).toList =
      List.replicate 1 '0' ++ '.' :: (List.replicate k '0' ++ ds) := by
    rw [String.toList_append, String.toList_append, toList_zeros]
    simp
  convert writes using 2
  · rw [digitsValue_append, digitsValue_append, digitsValue_zeros, digitsValue_zeros]
    simp
  · simp

theorem writes_before (digits : ∀ c ∈ ds, c.isDigit = true) (some : ds ≠ []) (k : Nat) :
    WritesValue (String.ofList ds ++ zeros k ++ ".0").toList (digitsValue ds * 10 ^ (k : Int)) := by
  have writes := writes_fraction (isDigit_append (isDigit_append digits (isDigit_zeros k))
    (isDigit_zeros 1)) (by simp [some])
  have chars : (String.ofList ds ++ zeros k ++ ".0").toList =
      ds ++ List.replicate k '0' ++ '.' :: List.replicate 1 '0' := by
    rw [String.toList_append, String.toList_append, toList_zeros, String.toList_ofList]
    rfl
  convert writes using 1
  rw [digitsValue_append, digitsValue_append, digitsValue_zeros, digitsValue_zeros,
    length_replicate, length_replicate, zpow_neg]
  simp

theorem writes_between (digits : ∀ c ∈ ds, c.isDigit = true) (some : 0 < k) (most : k < ds.length) :
    WritesValue (String.ofList (ds.take k) ++ "." ++ String.ofList (ds.drop k)).toList
      (digitsValue ds * 10 ^ ((k : Int) - ds.length)) := by
  have nonempty : ds.take k ≠ [] := by
    rw [ne_eq, take_eq_nil_iff, not_or]
    exact ⟨some.ne', ne_nil_of_length_pos (by omega)⟩
  have halves : ∀ c ∈ ds.take k ++ ds.drop k, c.isDigit = true := by rwa [take_append_drop]
  have writes := writes_fraction halves nonempty
  have chars : (String.ofList (ds.take k) ++ "." ++ String.ofList (ds.drop k)).toList =
      ds.take k ++ '.' :: ds.drop k := by
    simp
  convert writes using 2
  · rw [take_append_drop]
  · rw [length_drop]
    congr 1
    omega

/-- The digits with a point after the first one, if there are others. -/
def mantissa : List Char → String
  | [c] => String.ofList [c]
  | c :: cs => String.ofList (c :: '.' :: cs)
  | [] => ""

theorem writes_scientific (digits : ∀ c ∈ ds, c.isDigit = true) (some : ds ≠ []) (e : Int) :
    WritesValue (mantissa ds ++ "e" ++ exponentText e).toList
      (digitsValue ds * 10 ^ (e - ds.length + 1)) := by
  have stop : EndsDigits ('e' :: (exponentText e).toList) := by
    intro d first
    cases first
    rfl
  have exponent := readExponent?_exponentText e
  match ds with
  | [] => exact absurd rfl some
  | [c] =>
    refine ⟨[c], e, ?_, by simp⟩
    have writes := Writes.plain digits some stop (by simp) exponent
    simpa [mantissa] using writes
  | c :: d :: cs =>
    refine ⟨[c] ++ (d :: cs), e - (d :: cs).length, ?_, ?_⟩
    · have parted : ∀ x ∈ [c] ++ (d :: cs), x.isDigit = true := digits
      have writes := Writes.point parted (by simp) stop exponent
      simpa [mantissa] using writes
    · have place : e - (d :: cs).length = e - (c :: d :: cs).length + 1 := by
        simp only [length_cons]
        omega
      rw [place]
      rfl

theorem writes_text {d : Decimal} (positive : 0 < d.digits) : WritesValue d.text.toList d.value := by
  have digits : ∀ c ∈ Nat.toDigits 10 d.digits, c.isDigit = true := fun c => isDigit_toDigits
  have written : toString d.digits = String.ofList (Nat.toDigits 10 d.digits) := rfl
  have digitsEq := digitsValue_toDigits d.digits
  have some : Nat.toDigits 10 d.digits ≠ [] := Nat.toDigits_ne_nil
  unfold text
  rw [if_neg positive.ne', written, String.length_ofList, String.toList_ofList, value]
  generalize Nat.toDigits 10 d.digits = ds at *
  rw [← digitsEq]
  split
  · split
    · convert writes_behind digits _ using 2
      congr 1
      omega
    · split
      · convert writes_before digits some _ using 2
        congr 1
        omega
      · convert writes_between digits _ _ using 2
        · congr 1
          omega
        · omega
        · omega
  · have writes := writes_scientific digits some ((ds.length : Int) + d.exponent - 1)
    rwa [show (ds.length : Int) + d.exponent - 1 - ds.length + 1 = d.exponent by omega] at writes

/-! ## Reading a `Float` back -/

theorem isNumeral_of_takeSign (digits : ∀ c ∈ (takeSign cs).2, c.isDigit = true) :
    ∀ c ∈ cs, isNumeral c = true := by
  unfold takeSign at digits
  have numerals {cs : List Char} (digits : ∀ c ∈ cs, c.isDigit = true) : ∀ c ∈ cs, isNumeral c = true :=
    fun c member => isNumeral_of_isDigit (digits c member)
  split at digits
  · exact forall_mem_cons.mpr ⟨rfl, numerals digits⟩
  · exact forall_mem_cons.mpr ⟨rfl, numerals digits⟩
  · exact numerals digits

theorem isNumeral_of_readExponent? (exponent : readExponent? cs = some e) :
    ∀ c ∈ cs, isNumeral c = true := by
  unfold readExponent? at exponent
  split at exponent
  · simp
  · rename_i c cs
    split at exponent
    · rename_i letter
      have numeral : isNumeral c = true := by
        simp only [Bool.or_eq_true, beq_iff_eq] at letter
        rcases letter with rfl | rfl <;> rfl
      dsimp only at exponent
      split at exponent
      · cases exponent
      · rename_i digits
        simp only [Bool.or_eq_true, not_or, Bool.not_eq_true', Bool.not_eq_false,
          all_eq_true] at digits
        exact forall_mem_cons.mpr ⟨numeral, isNumeral_of_takeSign digits.2⟩
    · cases exponent

theorem Writes.isNumeral (writes : Writes cs ds e) : ∀ c ∈ cs, isNumeral c = true := by
  intro c member
  cases writes with
  | point digits _ _ exponent =>
    simp only [mem_append, mem_cons] at member
    rcases member with front | rfl | back | rest
    · exact isNumeral_of_isDigit (digits c (mem_append_left _ front))
    · rfl
    · exact isNumeral_of_isDigit (digits c (mem_append_right _ back))
    · exact isNumeral_of_readExponent? exponent c rest
  | plain digits _ _ _ exponent =>
    rcases mem_append.mp member with front | rest
    · exact isNumeral_of_isDigit (digits c front)
    · exact isNumeral_of_readExponent? exponent c rest

theorem Writes.eq_cons (writes : Writes cs ds e) : ∃ c more, cs = c :: more ∧ c.isDigit = true := by
  cases writes with
  | @point whole part rest _ digits some _ _ | plain digits some _ _ _ =>
    obtain ⟨c, more, rfl⟩ := exists_cons_of_ne_nil some
    exact ⟨c, _, rfl, digits c (by simp)⟩

theorem toLower_digit (digit : c.isDigit = true) : c.toLower = c := by
  rw [Char.isDigit_iff_toNat] at digit
  have high : c.toNat ≤ 57 := digit.2
  unfold Char.toLower
  rw [dif_neg]
  rintro ⟨upper, -⟩
  have : 65 ≤ c.toNat := upper
  omega

theorem readFloat?_writes (chars : s.toList = (if negative then ['-'] else []) ++ cs)
    (writes : Writes cs ds e) : readFloat? s = readUnsigned? negative cs := by
  obtain ⟨c, more, rfl, digit⟩ := writes.eq_cons
  have signed : Signed s negative (c :: more) := by
    refine ⟨chars, ?_, writes.isNumeral⟩
    rintro d ⟨⟩
    exact digit
  have noWord {w : String} {d : Char} {ds : List Char} (word : w.toList = d :: ds)
      (letter : d.isDigit = false) :
      (String.ofList ((c :: more).map Char.toLower) == w) = false := by
    rw [beq_eq_false_iff_ne]
    intro same
    have := congrArg String.toList same
    rw [String.toList_ofList, word, map_cons, toLower_digit digit] at this
    cases this
    rw [digit] at letter
    cases letter
  unfold readFloat?
  rw [dropUnderscores_normalized signed.isNumeral]
  simp only [Option.bind_eq_bind, Option.bind_some, signed.takeSign_eq]
  rw [noWord rfl rfl, noWord rfl rfl, noWord rfl rfl]
  rfl

theorem readFloat?_ofFloat (number : shape x ≠ .nan) : readFloat? (ofFloat x) = some x := by
  unfold ofFloat
  split
  · rename_i none
    exact absurd none number
  · rename_i negative shaped
    rw [← signed_infinity shaped]
    cases negative <;> rfl
  · rename_i negative m q shaped
    obtain ⟨fits, -, -⟩ := shape_eq_finite shaped
    have chars : ((if negative then "-" else "") ++ text (shortest m q)).toList =
        (if negative then ['-'] else []) ++ (text (shortest m q)).toList := by
      rw [String.toList_append]
      cases negative <;> rfl
    rw [← signed_assemble shaped]
    rcases Nat.eq_zero_or_pos m with zero | positive
    · subst zero
      have noBits : assemble 0 q = 0.0 := by
        apply eq_of_toBits
        rw [toBits_assemble fits, toBits_zero, if_pos (by decide)]
      have written : (text (shortest 0 q)).toList = ['0', '.', '0'] := by
        rw [shortest, if_pos rfl]
        rfl
      have writes : Writes ['0', '.', '0'] ['0', '0'] (0 - 1) :=
        Writes.point (isDigit_append (isDigit_zeros 1) (isDigit_zeros 1)) (by simp) endsDigits_nil rfl
      rw [written] at chars
      rw [noBits, readFloat?_writes chars writes]
      rfl
    · have near := shortest_nearest fits positive
      obtain ⟨ds, e, writes, same⟩ := writes_text (pos_of_nearest fits positive near)
      rw [← same] at near
      rw [readFloat?_writes chars writes, readUnsigned?_nearest fits positive writes near]

end DreamBerd.Decimal
