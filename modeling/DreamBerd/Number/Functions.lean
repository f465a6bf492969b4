import DreamBerd.Action
import DreamBerd.Number
import DreamBerd.Number.Special

/-!
# Mathematical functions

`MathFunction.apply` computes a mathematical function of numbers. A result that no number stands for
is a breakdown: of value outside the domain, of overflow where it is too large.
-/

namespace DreamBerd

namespace MathFunction

open Binary64

/-! ## Results -/

def domainError {α : Type} : Except Fault α := .error (.breakdown .value)

def rangeError {α : Type} : Except Fault α := .error (.breakdown .overflow)

def kindError {α : Type} : Except Fault α := .error (.breakdown .kind)

/-- Check the result of a function of one number: it is no number only if the argument is none, and
infinite only if the argument is, unless it has become too large. -/
def checked (canOverflow : Bool) (f : Float → Float) (x : Float) : Except Fault Float :=
  let r := f x
  if r.isNaN && !x.isNaN then domainError
  else if r.isInf && x.isFinite then (if canOverflow then rangeError else domainError)
  else .ok r

def bounded (r : Float) : Except Fault Float := if r.isInf then rangeError else .ok r

def asInteger (n : Number) : Except Fault Int :=
  match n.whole? with
  | some k => .ok k
  | none => kindError

/-! ## Roots and logarithms of exact numbers -/

def nearestRoot (num k : Nat) : Float :=
  let extra := 64
  let root := (num * Nat.pow 4 extra).sqrt
  let exact := root * root == num * Nat.pow 4 extra
  ofRatio false (2 * root + (if exact then 0 else 1)) (2 * Nat.pow 2 (k + extra))

/-- The square of a finite `Float`, as a multiple of `4 ^ (-1074)`. -/
def scaledSquare (x : Float) : Nat :=
  match shape x with
  | .finite _ m q => m * m * Nat.pow 4 (q + 1074).toNat
  | _ => 0

def norm (xs : List Float) : Float :=
  if xs.any Float.isInf then infinity
  else if xs.any Float.isNaN then nan
  else
    let sum := (xs.map scaledSquare).foldl (· + ·) 0
    if sum = 0 then 0.0 else nearestRoot sum 1074

def logOfFloat (f : Float → Float) (x : Float) : Except Fault Float :=
  if x.isNaN then .ok x
  else if x > 0.0 then .ok (f x)
  else domainError

/-- A positive integer as a `Float` between a half and one and a power of two. -/
def splitInteger (n : Nat) : Float × Nat :=
  let bits := n.log2 + 1
  let x := ofRatio false n (Nat.pow 2 bits)
  if x == 1.0 then (0.5, bits + 1) else (x, bits)

/-- A logarithm of a positive number; an integer may be too large for a `Float`. -/
def logarithm (f : Float → Float) (n : Number) : Except Fault Number := do
  match n.whole? with
  | some k =>
    if k ≤ 0 then domainError
    else
      match ofInt? k with
      | some x => return .real (← logOfFloat f x)
      | none =>
        let (x, e) := splitInteger k.toNat
        return .real (f x + f 2.0 * Float.ofNat e)
  | none => return .real (← logOfFloat f (← n.toFloat))

/-! ## Parts of numbers -/

/-- A `Float` as a number between a half and one times a power of two. -/
def frexpOf (x : Float) : Float × Int :=
  match shape x with
  | .finite negative m q =>
    if m = 0 then (x, 0)
    else
      let bits := m.log2 + 1
      (ofRatio negative m (Nat.pow 2 bits), q + bits)
  | _ => (x, 0)

/-- `x * 2 ^ i`, rounded once. -/
def ldexpOf (x : Float) (i : Int) : Except Fault Float :=
  match shape x with
  | .finite negative m q =>
    if m = 0 then .ok x
    else if i > 5000 then rangeError
    else if i < -5000 then .ok (signed negative 0.0)
    else
      let (num, den) := ratio m (q + i)
      bounded (ofRatio negative num den)
  | _ => .ok x

def modfOf (x : Float) : Float × Float :=
  match shape x with
  | .nan => (x, x)
  | .infinite negative => (signed negative 0.0, x)
  | .finite negative m q =>
    let (num, den) := ratio m q
    (fraction x, ofRatio negative (num / den) 1)

def nextAfterOf (x y : Float) : Float :=
  if x.isNaN then x
  else if y.isNaN then y
  else if x == y then y
  else if x == 0.0 then signed (isNegative y) (Float.ofBits 1)
  else if (x < y) == (x > 0.0) then Float.ofBits (x.toBits + 1)
  else Float.ofBits (x.toBits - 1)

def ulpOf (x : Float) : Float :=
  if x.isNaN then x
  else
    let x := x.abs
    if x.isInf then x
    else
      let next := nextAfterOf x infinity
      if next.isInf then x - nextAfterOf x (-infinity) else next - x

/-- The rest of a division of two finite `Float`s with the quotient rounded by the given rule, and
the sign of a zero taken from the dividend. -/
def restOf (rule : Rat → Int) (x y : Float) : Option Float := do
  let a ← toRat? x
  let b ← toRat? y
  if b = 0 then none
  else
    let r := a - rule (a / b) * b
    some (ofRatio (if r = 0 then isNegative x else r < 0) r.num.natAbs r.den)

def nearestInteger (q : Rat) : Int :=
  let n : Int := roundHalfEven q.num.natAbs q.den
  if q < 0 then -n else n

def integerPart (q : Rat) : Int := Int.tdiv q.num q.den

/-- The rest of a division, also for infinite and missing numbers. -/
def division (rule : Rat → Int) (x y : Float) : Except Fault Float :=
  if x.isNaN then .ok x
  else if y.isNaN then .ok y
  else if x.isInf then domainError
  else if y.isInf then .ok x
  else
    match restOf rule x y with
    | some r => .ok r
    | none => domainError

/-! ## Powers -/

/-- A power; of infinite and missing numbers by limits. -/
def powOf (x y : Float) : Except Fault Float :=
  if x.isFinite && y.isFinite then
    let r := Float.pow x y
    if r.isNaN then domainError
    else if r.isInf then (if x == 0.0 then domainError else rangeError)
    else .ok r
  else if x.isNaN then .ok (if y == 0.0 then 1.0 else x)
  else if y.isNaN then .ok (if x == 1.0 then 1.0 else y)
  else if x.isInf then
    let odd := y.isFinite && Number.isOddFloat y
    if y > 0.0 then .ok (if odd then x else x.abs)
    else if y == 0.0 then .ok 1.0
    else .ok (if odd then signed (isNegative x) 0.0 else 0.0)
  else if x.abs == 1.0 then .ok 1.0
  else if (y > 0.0) == (x.abs > 1.0) then .ok y.abs
  else .ok 0.0

/-! ## Gamma functions -/

def factorialOf (n : Nat) : Nat := (List.range n).foldl (fun p i => p * (i + 1)) 1

def gammaOf (x : Float) : Except Fault Float :=
  if x.isNaN then .ok x
  else if x.isInf then (if x > 0.0 then .ok x else domainError)
  else if x == 0.0 then domainError
  else
    let whole := fraction x == 0.0
    if whole && x < 0.0 then domainError
    else if whole && x ≤ 23.0 then .ok (Float.ofNat (factorialOf (x.toUInt64.toNat - 1)))
    else if x.abs < 1e-20 then bounded (1.0 / x)
    else if x.abs > 200.0 then
      if x < 0.0 then .ok (0.0 / -(Number.Special.sinPi x.abs)) else rangeError
    else bounded (Number.Special.gammaCore x)

def logGammaOf (x : Float) : Except Fault Float :=
  if x.isNaN then .ok x
  else if x.isInf then .ok infinity
  else if fraction x == 0.0 && x ≤ 2.0 then
    if x ≤ 0.0 then domainError else .ok 0.0
  else if x.abs < 1e-20 then .ok (-Float.log x.abs)
  else bounded (Number.Special.logGammaCore x)

/-! ## Integers -/

def combOf (n k : Nat) : Nat :=
  (List.range (min k (n - k))).foldl (fun p i => p * (n - i) / (i + 1)) 1

/-- A number of choices of `b` things among `a`. -/
def choices (count : Nat → Nat → Nat) (a b : Number) : Except Fault Number := do
  let n ← asInteger a
  let k ← asInteger b
  if n < 0 || k < 0 then domainError
  else if n < k then return .int 0
  else return .int (count n.toNat k.toNat)

def integers (args : List Number) : Except Fault (List Int) := args.mapM asInteger

/-! ## Sums -/

/-- The components of a tuple; other numbers have none. -/
def components : Number → Except Fault (List Number)
  | .tuple xs => .ok (xs.map Number.ofScalar)
  | _ => kindError

def exactSum (xs : List Float) : Except Fault Float :=
  if xs.any Float.isNaN then .ok nan
  else if xs.any Float.isInf then
    let sum := (xs.filter Float.isInf).foldl (· + ·) 0.0
    if sum.isNaN then domainError else .ok sum
  else
    let sum : Rat := (xs.filterMap toRat?).foldl (· + ·) 0
    bounded (ofRatio (sum < 0) sum.num.natAbs sum.den)

/-- Whether two `Float`s differ by less than a billionth. -/
def isCloseOf (a b : Float) : Bool :=
  if a == b then true
  else if a.isInf || b.isInf then false
  else
    let diff := (b - a).abs
    diff ≤ (1e-9 * b).abs || diff ≤ (1e-9 * a).abs

def distance (p q : List Number) : Except Fault Float := do
  if p.length ≠ q.length then domainError
  else
    let ps ← p.mapM Number.toFloat
    let qs ← q.mapM Number.toFloat
    return norm (ps.zipWith (fun a b => (a - b).abs) qs)

/-! ## Application -/

/-- The function of one `Float`, with whether its result can become too large. -/
def ofFloat? : MathFunction → Option (Bool × (Float → Float))
  | acos => some (false, Float.acos)
  | acosh => some (false, Float.acosh)
  | asin => some (false, Float.asin)
  | asinh => some (false, Float.asinh)
  | atan => some (false, Float.atan)
  | atanh => some (false, Float.atanh)
  | cbrt => some (false, Float.cbrt)
  | cos => some (false, Float.cos)
  | cosh => some (true, Float.cosh)
  | erf => some (true, Number.Special.erf)
  | erfc => some (true, Number.Special.erfc)
  | exp => some (true, Float.exp)
  | exp2 => some (true, Float.exp2)
  | expm1 => some (true, Number.Special.expm1)
  | fabs => some (false, Float.abs)
  | log1p => some (false, Number.Special.log1p)
  | sin => some (false, Float.sin)
  | sinh => some (true, Float.sinh)
  | sqrt => some (false, Float.sqrt)
  | tan => some (false, Float.tan)
  | tanh => some (false, Float.tanh)
  | _ => none

def roundBy (rule : Float → Option Int) (n : Number) : Except Fault Number := do
  match n.whole? with
  | some k => return .int k
  | none => return .int (← Number.integral rule (← n.toFloat))

def apply1 (f : MathFunction) (n : Number) : Except Fault Number := do
  match f with
  | ceil => roundBy (fun x => (floor? (-x)).map (- ·)) n
  | floor => roundBy floor? n
  | trunc => roundBy truncate? n
  | factorial | perm =>
    let k ← asInteger n
    if k < 0 then domainError else return .int (factorialOf k.toNat)
  | isqrt =>
    let k ← asInteger n
    if k < 0 then domainError else return .int k.toNat.sqrt
  | frexp =>
    let (m, e) := frexpOf (← n.toFloat)
    return .tuple [.real m, .int e]
  | modf =>
    let (rest, whole) := modfOf (← n.toFloat)
    return .tuple [.real rest, .real whole]
  | fsum => return .real (← exactSum (← (← components n).mapM Number.toFloat))
  | prod => (← components n).foldlM Number.mul (.int 1)
  | degrees => return .real ((← n.toFloat) * (180.0 / Number.Special.pi))
  | radians => return .real ((← n.toFloat) * (Number.Special.pi / 180.0))
  | gamma => return .real (← gammaOf (← n.toFloat))
  | lgamma => return .real (← logGammaOf (← n.toFloat))
  | isfinite => return .truth (← n.toFloat).isFinite
  | isinf => return .truth (← n.toFloat).isInf
  | isnan => return .truth (← n.toFloat).isNaN
  | log => logarithm Float.log n
  | log2 => logarithm Float.log2 n
  | log10 => logarithm Float.log10 n
  | ulp => return .real (ulpOf (← n.toFloat))
  | f =>
    match ofFloat? f with
    | some (canOverflow, g) => return .real (← checked canOverflow g (← n.toFloat))
    | none => kindError

def apply2 (f : MathFunction) (a b : Number) : Except Fault Number := do
  match f with
  | atan2 => return .real (Float.atan2 (← a.toFloat) (← b.toFloat))
  | comb => choices combOf a b
  | perm => choices (fun n k => factorialOf n / factorialOf (n - k)) a b
  | copysign => return .real (signed (isNegative (← b.toFloat)) (← a.toFloat).abs)
  | dist => return .real (← distance (← components a) (← components b))
  | fmod => return .real (← division integerPart (← a.toFloat) (← b.toFloat))
  | isclose => return .truth (isCloseOf (← a.toFloat) (← b.toFloat))
  | ldexp => return .real (← ldexpOf (← a.toFloat) (← asInteger b))
  | nextafter => return .real (nextAfterOf (← a.toFloat) (← b.toFloat))
  | pow => return .real (← powOf (← a.toFloat) (← b.toFloat))
  | remainder => return .real (← division nearestInteger (← a.toFloat) (← b.toFloat))
  | log =>
    let x ← logarithm Float.log a
    let y ← logarithm Float.log b
    x.div y
  | _ => kindError

def apply (f : MathFunction) (args : List Number) : Except Fault Number := do
  match f with
  | gcd => return .int ((← integers args).foldl (fun g n => Int.gcd g n) 0)
  | lcm => return .int ((← integers args).foldl (fun g n => Int.lcm g n) 1)
  | hypot => return .real (norm (← args.mapM Number.toFloat))
  | f =>
    match args with
    | [n] => apply1 f n
    | [a, b] => apply2 f a b
    | _ => kindError

end MathFunction

end DreamBerd
