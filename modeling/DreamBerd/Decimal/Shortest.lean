import DreamBerd.Binary64

/-!
# Shortest decimals

`Decimal.shortest` finds the fewest digits that still name a given `Float` among all others, the
nearest such decimal if there are several. `Decimal.text` writes it: in positional notation while the
point stands within sixteen places, with an exponent of at least two digits otherwise.
-/

namespace DreamBerd

/-- The number `digits * 10 ^ exponent`. -/
structure Decimal where
  digits : Nat
  exponent : Int
  deriving DecidableEq

namespace Decimal

open Binary64

/-- Whether `10 ^ e ≤ num / den`. -/
def powerLe (e : Int) (num den : Nat) : Bool :=
  if 0 ≤ e then decide (Nat.pow 10 e.toNat * den ≤ num)
  else decide (den ≤ num * Nat.pow 10 (-e).toNat)

/-- Walk up from `e` to the greatest power of ten that is not above `num / den`. -/
def climb (num den : Nat) : Nat → Int → Int
  | 0, e => e
  | n + 1, e => if powerLe (e + 1) num den then climb num den n (e + 1) else e

/-- The exponent of the leading digit of the positive ratio `num / den`. -/
def leading (num den : Nat) : Int :=
  let bits : Int := (num.log2 : Int) - den.log2
  climb num den 8 (Int.fdiv (bits * 30103) 100000 - 3)

/-- `num / den` divided by `10 ^ e`, as a ratio. -/
def scale (num den : Nat) (e : Int) : Nat × Nat :=
  if 0 ≤ e then (num, den * Nat.pow 10 e.toNat) else (num * Nat.pow 10 (-e).toNat, den)

/-- The neighbours of `m * 2 ^ q` leave it the numbers between two midpoints. The numerators of the
value and of the lower and the upper midpoint, and their common denominator. -/
def surroundings (m : Nat) (q : Int) : Nat × Nat × Nat × Nat :=
  let quarter := q - 2
  let below := if m = Nat.pow 2 52 ∧ q > minExponent then 1 else 2
  ((ratio (4 * m) quarter).1, (ratio (4 * m - below) quarter).1, (ratio (4 * m + 2) quarter).1,
    (ratio 1 quarter).2)

/-- Whether `d * 10 ^ e` lies between `low / den` and `high / den`; the ends belong to it if
`closed`. -/
def within (closed : Bool) (low high den : Nat) (d : Nat) (e : Int) : Bool :=
  let (l, lden) := scale low den e
  let (h, hden) := scale high den e
  if closed then decide (l ≤ d * lden) && decide (d * hden ≤ h)
  else decide (l < d * lden) && decide (d * hden < h)

/-- The decimal of `n` digits that names the value, if there is one. -/
def ofLength? (m : Nat) (q : Int) (n : Nat) : Option Decimal :=
  let (num, low, high, den) := surroundings m q
  let e := leading num den - n + 1
  let (s, sden) := scale num den e
  let floor := s / sden
  let closed := m % 2 == 0
  let down := within closed low high den floor e
  let up := within closed low high den (floor + 1) e
  match down, up with
  | true, true => some ⟨roundHalfEven s sden, e⟩
  | true, false => some ⟨floor, e⟩
  | false, true => some ⟨floor + 1, e⟩
  | false, false => none

/-- The same number without trailing zeros. -/
def strip : Nat → Decimal → Decimal
  | 0, d => d
  | n + 1, d => if d.digits % 10 = 0 ∧ d.digits ≠ 0 then strip n ⟨d.digits / 10, d.exponent + 1⟩ else d

/-- The shortest decimal that names `m * 2 ^ q`; seventeen digits always do. -/
def shortest (m : Nat) (q : Int) : Decimal :=
  if m = 0 then ⟨0, 0⟩
  else strip 20 (((List.range 17).findSome? fun i => ofLength? m q (i + 1)).getD ⟨0, 0⟩)

/-- The digits of an exponent, with its sign and at least two places. -/
def exponentText (e : Int) : String :=
  let digits := toString e.natAbs
  (if e < 0 then "-" else "+") ++ (if digits.length < 2 then "0" ++ digits else digits)

def zeros (n : Nat) : String := String.ofList (List.replicate n '0')

/-- Write a decimal: with a point if the point stands after the fourth zero and within sixteen
places, with an exponent otherwise. -/
def text (d : Decimal) : String :=
  let digits := toString d.digits
  let point : Int := digits.length + d.exponent
  if d.digits = 0 then "0.0"
  else if -4 < point ∧ point ≤ 16 then
    if point ≤ 0 then "0." ++ zeros (-point).toNat ++ digits
    else if digits.length ≤ point.toNat then digits ++ zeros (point.toNat - digits.length) ++ ".0"
    else String.ofList (digits.toList.take point.toNat) ++ "."
      ++ String.ofList (digits.toList.drop point.toNat)
  else
    let mantissa :=
      match digits.toList with
      | [c] => String.ofList [c]
      | c :: cs => String.ofList (c :: '.' :: cs)
      | [] => ""
    mantissa ++ "e" ++ exponentText (point - 1)

/-- The text of a `Float`: the shortest one that reads back the same. -/
def ofFloat (x : Float) : String :=
  match shape x with
  | .nan => "nan"
  | .infinite negative => if negative then "-inf" else "inf"
  | .finite negative m q => (if negative then "-" else "") ++ text (shortest m q)

end Decimal

end DreamBerd
