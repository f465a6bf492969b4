/-!
# Binary floating point, exactly

A `Float` seen as the number that it stands for: `Binary64.shape` takes it apart into sign, integral
significand and power of two, `Binary64.toRat?` gives its exact value, and `Binary64.ofRatio` rounds
a ratio of natural numbers to the nearest `Float`, a tie to the even significand.
-/

namespace DreamBerd

namespace Binary64

/-- What a `Float` stands for; a finite one is `significand * 2 ^ exponent`, up to sign. -/
inductive Shape where
  | nan
  | infinite (negative : Bool)
  | finite (negative : Bool) (significand : Nat) (exponent : Int)
  deriving DecidableEq

def minExponent : Int := -1074

def maxExponent : Int := 971

def shape (x : Float) : Shape :=
  let bits := x.toBits.toNat
  let negative := decide (Nat.pow 2 63 ≤ bits)
  let field : Nat := bits / Nat.pow 2 52 % 2048
  let fraction : Nat := bits % Nat.pow 2 52
  if field = 2047 then
    if fraction = 0 then .infinite negative else .nan
  else if field = 0 then .finite negative fraction minExponent
  else .finite negative (fraction + Nat.pow 2 52) ((field : Int) - 1075)

def nan : Float := 0.0 / 0.0

def infinity : Float := 1.0 / 0.0

def signed (negative : Bool) (x : Float) : Float := if negative then -x else x

/-- The exact value of `significand * 2 ^ exponent` as a ratio. -/
def ratio (significand : Nat) (exponent : Int) : Nat × Nat :=
  if 0 ≤ exponent then (significand * Nat.pow 2 exponent.toNat, 1)
  else (significand, Nat.pow 2 (-exponent).toNat)

def toRat? (x : Float) : Option Rat :=
  match shape x with
  | .finite negative m q =>
    let (num, den) := ratio m q
    some (mkRat (if negative then -(num : Int) else num) den)
  | _ => none

/-- The integer nearest to `num / den`, a tie to the even one. -/
def roundHalfEven (num den : Nat) : Nat :=
  let quotient := num / den
  let twice := 2 * (num % den)
  if twice < den then quotient
  else if den < twice then quotient + 1
  else if quotient % 2 = 0 then quotient else quotient + 1

def scaledRound (num den : Nat) (q : Int) : Nat :=
  if 0 ≤ q then roundHalfEven num (den * Nat.pow 2 q.toNat)
  else roundHalfEven (num * Nat.pow 2 (-q).toNat) den

/-- `num / den / 2 ^ q` without its fraction. -/
def scaledFloor (num den : Nat) (q : Int) : Nat :=
  if 0 ≤ q then num / (den * Nat.pow 2 q.toNat) else num * Nat.pow 2 (-q).toNat / den

/-- The exponent for a positive ratio: the one that leaves 53 bits, but not below the least. -/
def exponentFor (num den : Nat) : Int :=
  let guess : Int := (num.log2 : Int) - den.log2 - 53
  let exact := if scaledFloor num den guess < Nat.pow 2 53 then guess else guess + 1
  max exact minExponent

def assemble (significand : Nat) (exponent : Int) : Float :=
  if significand = Nat.pow 2 53 then
    if exponent + 1 > maxExponent then infinity
    else Float.ofBits (UInt64.ofNat ((exponent + 1076).toNat * Nat.pow 2 52))
  else if exponent > maxExponent then infinity
  else if significand < Nat.pow 2 52 then Float.ofBits (UInt64.ofNat significand)
  else
    Float.ofBits
      (UInt64.ofNat ((exponent + 1075).toNat * Nat.pow 2 52 + (significand - Nat.pow 2 52)))

/-- The `Float` nearest to `num / den`, a tie to the even significand; infinite if too large. -/
def ofRatio (negative : Bool) (num den : Nat) : Float :=
  if num = 0 then signed negative 0.0
  else
    let q := exponentFor num den
    signed negative (assemble (scaledRound num den q) q)

def ofInt? (n : Int) : Option Float :=
  let x := ofRatio (n < 0) n.natAbs 1
  if x.isFinite then some x else none

/-- The nearest `Float` to `a / b`, for `b` not zero, unless it is too large. -/
def quotient? (a b : Int) : Option Float :=
  let x := ofRatio ((a < 0) != (b < 0)) a.natAbs b.natAbs
  if x.isFinite then some x else none

/-- The integer part of a finite `Float`, towards zero. -/
def truncate? (x : Float) : Option Int :=
  match shape x with
  | .finite negative m q =>
    let (num, den) := ratio m q
    some (if negative then -((num / den : Nat) : Int) else (num / den : Nat))
  | _ => none

def floor? (x : Float) : Option Int :=
  match shape x with
  | .finite negative m q =>
    let (num, den) := ratio m q
    some (Int.fdiv (if negative then -(num : Int) else num) den)
  | _ => none

def round? (x : Float) : Option Int :=
  match shape x with
  | .finite negative m q =>
    let (num, den) := ratio m q
    let n := roundHalfEven num den
    some (if negative then -(n : Int) else n)
  | _ => none

/-- The part of a finite `Float` after the point, with its sign. -/
def fraction (x : Float) : Float :=
  match shape x with
  | .finite negative m q =>
    let (num, den) := ratio m q
    ofRatio negative (num % den) den
  | .infinite negative => signed negative 0.0
  | .nan => nan

def isNegative (x : Float) : Bool := decide (Nat.pow 2 63 ≤ x.toBits.toNat)

end Binary64

end DreamBerd
