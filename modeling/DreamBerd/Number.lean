import DreamBerd.Decimal.Read
import DreamBerd.Decimal.Shortest
import DreamBerd.Fault

/-!
# Numbers

A number is an integer without bound or a `Float`; mathematical functions also give truth values,
which count as zero and one, and tuples of numbers. Comparison is exact: two numbers are compared as
the rational numbers that they stand for, and a number that is none compares as neither equal nor
less.
-/

namespace DreamBerd

inductive Scalar where
  | int (n : Int)
  | real (x : Float)
  deriving DecidableEq

inductive Number where
  | int (n : Int)
  | real (x : Float)
  | truth (b : Bool)
  | tuple (xs : List Scalar)

namespace Number

def ofScalar : Scalar → Number
  | .int n => int n
  | .real x => real x

/-- The integer that an integer or a truth value stands for. -/
def whole? : Number → Option Int
  | int n => some n
  | truth b => some (if b then 1 else 0)
  | _ => none

/-- Differences below this one count as none. -/
def precision : Float := 1e-8

/-! ## Comparison -/

/-- The numbers with the two infinities. -/
inductive Extent where
  | negative
  | finite (q : Rat)
  | positive
  deriving DecidableEq

def Extent.lt : Extent → Extent → Bool
  | negative, negative => false
  | negative, _ => true
  | _, negative => false
  | positive, _ => false
  | finite _, positive => true
  | finite a, finite b => decide (a < b)

/-- What a `Float` stands for, unless it is no number. -/
def extentOfFloat? (x : Float) : Option Extent :=
  match Binary64.shape x with
  | .nan => none
  | .infinite negative => some (if negative then .negative else .positive)
  | .finite .. => (Binary64.toRat? x).map .finite

/-- What a number stands for; tuples and the number that is none stand for nothing. -/
def extent? : Number → Option Extent
  | int n => some (.finite n)
  | real x => extentOfFloat? x
  | truth b => some (.finite (if b then 1 else 0))
  | tuple _ => none

def scalarEq (a b : Number) : Bool :=
  match a.whole?, b.whole? with
  | some m, some n => m == n
  | _, _ =>
    match a.extent?, b.extent? with
    | some x, some y => x == y
    | _, _ => false

def scalarLt (a b : Number) : Bool :=
  match a.whole?, b.whole? with
  | some m, some n => decide (m < n)
  | _, _ =>
    match a.extent?, b.extent? with
    | some x, some y => x.lt y
    | _, _ => false

def tupleEq : List Scalar → List Scalar → Bool
  | [], [] => true
  | a :: as, b :: bs => scalarEq (ofScalar a) (ofScalar b) && tupleEq as bs
  | _, _ => false

/-- Order of tuples: that of the first components that differ. -/
def tupleLt : List Scalar → List Scalar → Bool
  | [], [] => false
  | [], _ :: _ => true
  | _ :: _, [] => false
  | a :: as, b :: bs =>
    if scalarEq (ofScalar a) (ofScalar b) then tupleLt as bs
    else scalarLt (ofScalar a) (ofScalar b)

def eq (a b : Number) : Bool :=
  match a, b with
  | tuple xs, tuple ys => tupleEq xs ys
  | tuple _, _ => false
  | _, tuple _ => false
  | a, b => scalarEq a b

instance : BEq Number := ⟨eq⟩

/-- Order; a tuple is not compared with a single number. -/
def lt (a b : Number) : Except Fault Bool :=
  match a, b with
  | tuple xs, tuple ys => .ok (tupleLt xs ys)
  | tuple _, _ => .error (.breakdown .kind)
  | _, tuple _ => .error (.breakdown .kind)
  | a, b => .ok (scalarLt a b)

/-- Less or equal; a number that is none is neither. -/
def le (a b : Number) : Except Fault Bool := do
  if ← a.lt b then return true else return a.eq b

def between (low x high : Number) : Except Fault Bool := do
  if ← low.le x then x.le high else return false

/-! ## Text -/

/-- The text of an integer, unless it has too many digits. -/
def intText (n : Int) : Except Fault String :=
  if n.natAbs.log2 ≥ 14284 ∧ n.natAbs ≥ Nat.pow 10 Decimal.maxDigits then
    .error (.breakdown .value)
  else .ok (toString n)

def scalarText : Scalar → Except Fault String
  | .int n => intText n
  | .real x => .ok (Decimal.ofFloat x)

def text : Number → Except Fault String
  | int n => intText n
  | real x => .ok (Decimal.ofFloat x)
  | truth b => .ok (if b then "True" else "False")
  | tuple xs => do
    match ← xs.mapM scalarText with
    | [x] => return "(" ++ x ++ ",)"
    | xs => return "(" ++ ", ".intercalate xs ++ ")"

/-- The number that a text writes: an integer if it has only digits and a sign. -/
def ofText? (s : String) : Option Number :=
  if s.toList.all (fun c => c.isDigit || c == '-' || c == '+') then
    (Decimal.readInt? s).map int
  else (Decimal.readFloat? s).map real

/-! ## Conversion -/

def floatOfInt (n : Int) : Except Fault Float :=
  match Binary64.ofInt? n with
  | some x => .ok x
  | none => .error (.breakdown .overflow)

def toFloat : Number → Except Fault Float
  | int n => floatOfInt n
  | real x => .ok x
  | truth b => .ok (if b then 1.0 else 0.0)
  | tuple _ => .error (.breakdown .kind)

def integral (rule : Float → Option Int) (x : Float) : Except Fault Int :=
  match rule x with
  | some n => .ok n
  | none => .error (.breakdown (if x.isNaN then .value else .overflow))

def round : Number → Except Fault Int
  | int n => .ok n
  | real x => integral Binary64.round? x
  | truth b => .ok (if b then 1 else 0)
  | tuple _ => .error (.breakdown .kind)

def floatFraction (x : Float) : Float :=
  match Binary64.shape x with
  | .finite .. =>
    let f := Binary64.fraction x
    if f < 0.0 then f + 1.0 else if f == 0.0 then 0.0 else f
  | _ => Binary64.nan

/-- Whether a number is an integer, up to the precision. -/
def isInt : Number → Except Fault Bool
  | int _ => .ok true
  | truth _ => .ok true
  | real x =>
    let f := floatFraction x
    let g := 1.0 - f
    .ok ((if g < f then g else f) < precision)
  | tuple _ => .error (.breakdown .kind)

/-! ## Arithmetic -/

/-- Apply an operation on integers, or on the nearest `Float`s if one of the numbers is no
integer. -/
def arith (onInt : Int → Int → Int) (onFloat : Float → Float → Float) (a b : Number) :
    Except Fault Number :=
  match a.whole?, b.whole? with
  | some m, some n => .ok (int (onInt m n))
  | _, _ => do
    let x ← a.toFloat
    let y ← b.toFloat
    return real (onFloat x y)

def add (a b : Number) : Except Fault Number :=
  match a, b with
  | tuple xs, tuple ys => .ok (tuple (xs ++ ys))
  | a, b => arith (· + ·) (· + ·) a b

def sub (a b : Number) : Except Fault Number := arith (· - ·) (· - ·) a b

/-- A tuple times an integer is repeated that often. -/
def mul (a b : Number) : Except Fault Number :=
  match a, b with
  | tuple xs, n =>
    match n.whole? with
    | some k => .ok (tuple (List.replicate k.toNat xs).flatten)
    | none => .error (.breakdown .kind)
  | n, tuple xs =>
    match n.whole? with
    | some k => .ok (tuple (List.replicate k.toNat xs).flatten)
    | none => .error (.breakdown .kind)
  | a, b => arith (· * ·) (· * ·) a b

def neg : Number → Except Fault Number
  | int n => .ok (int (-n))
  | real x => .ok (real (-x))
  | truth b => .ok (int (if b then -1 else 0))
  | tuple _ => .error (.breakdown .kind)

def abs : Number → Except Fault Number
  | int n => .ok (int n.natAbs)
  | real x => .ok (real x.abs)
  | truth b => .ok (int (if b then 1 else 0))
  | tuple _ => .error (.breakdown .kind)

/-- Division; the quotient of two integers is the `Float` nearest to their ratio. -/
def div (a b : Number) : Except Fault Number :=
  match a.whole?, b.whole? with
  | some m, some n =>
    if n = 0 then .error (.breakdown .divisionByZero)
    else
      match Binary64.quotient? m n with
      | some x => .ok (real x)
      | none => .error (.breakdown .overflow)
  | _, _ => do
    let x ← a.toFloat
    let y ← b.toFloat
    if y == 0.0 then .error (.breakdown .divisionByZero) else return real (x / y)

def isOddFloat (x : Float) : Bool :=
  match Binary64.truncate? x with
  | some n => Binary64.fraction x == 0.0 && n % 2 != 0
  | none => false

/-- A power of two `Float`s. A negative number has no power with a fractional exponent here. -/
def floatPow (x y : Float) : Except Fault Float :=
  if y == 0.0 then .ok 1.0
  else if x.isNaN then .ok x
  else if y.isNaN then .ok (if x == 1.0 then 1.0 else y)
  else if y.isInf then
    let m := x.abs
    if m == 1.0 then .ok 1.0
    else if (y > 0.0) == (m > 1.0) then .ok y.abs
    else .ok 0.0
  else if x.isInf then
    if y > 0.0 then .ok (if isOddFloat y then x else x.abs)
    else .ok (if isOddFloat y then Binary64.signed (Binary64.isNegative x) 0.0 else 0.0)
  else if x == 0.0 then
    if y < 0.0 then .error (.breakdown .divisionByZero)
    else .ok (if isOddFloat y then x else 0.0)
  else if x < 0.0 && Binary64.fraction y != 0.0 then .error (.breakdown .value)
  else
    let negate := x < 0.0 && isOddFloat y
    let r := Float.pow x.abs y
    if r.isInf then .error (.breakdown .overflow) else .ok (Binary64.signed negate r)

/-- Powers; of integers exactly, unless the exponent is negative. -/
def pow (a b : Number) : Except Fault Number :=
  match a.whole?, b.whole? with
  | some m, some n =>
    if 0 ≤ n then .ok (int (Int.pow m n.toNat))
    else do
      let x ← floatOfInt m
      let y ← floatOfInt n
      return real (← floatPow x y)
  | _, _ => do
    let x ← a.toFloat
    let y ← b.toFloat
    return real (← floatPow x y)

/-! ## Positions -/

/-- The position at which an element between two positions is inserted: that of the first element
above the index. -/
def insertionPoint (i : Number) : Except Fault Nat := do
  match ← i.add (int 2) with
  | int n => return n.toNat
  | real x =>
    let n ← integral Binary64.floor? x |>.mapError fun _ => .breakdown .value
    return n.toNat
  | _ => .error (.breakdown .kind)

end Number

end DreamBerd
