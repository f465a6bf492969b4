/-!
# Actions

The procedures that are built into the language, and those that programs make by `use` and by
declaring classes. `Action.name` is the name under which a procedure is published, and
`Action.qualifiedName` tells in addition where it was made.
-/

namespace DreamBerd

inductive MathFunction where
  | acos | acosh | asin | asinh | atan | atan2 | atanh | cbrt | ceil | comb | copysign | cos | cosh
  | degrees | dist | erf | erfc | exp | exp2 | expm1 | fabs | factorial | floor | fmod | frexp | fsum
  | gamma | gcd | hypot | isclose | isfinite | isinf | isnan | isqrt | lcm | ldexp | lgamma | log
  | log10 | log1p | log2 | modf | nextafter | perm | pow | prod | radians | remainder | sin | sinh
  | sqrt | tan | tanh | trunc | ulp
  deriving DecidableEq

namespace MathFunction

/-- Every function with its name and the number of its arguments; -1 stands for any number. -/
def table : List (MathFunction × String × Int) := [
  (acos, "acos", 1), (acosh, "acosh", 1), (asin, "asin", 1), (asinh, "asinh", 1),
  (atan, "atan", 1), (atan2, "atan2", 2), (atanh, "atanh", 1), (cbrt, "cbrt", 1),
  (ceil, "ceil", 1), (comb, "comb", 2), (copysign, "copysign", 2), (cos, "cos", 1),
  (cosh, "cosh", 1), (degrees, "degrees", 1), (dist, "dist", 2), (erf, "erf", 1),
  (erfc, "erfc", 1), (exp, "exp", 1), (exp2, "exp2", 1), (expm1, "expm1", 1), (fabs, "fabs", 1),
  (factorial, "factorial", 1), (floor, "floor", 1), (fmod, "fmod", 2), (frexp, "frexp", 1),
  (fsum, "fsum", 1), (gamma, "gamma", 1), (gcd, "gcd", -1), (hypot, "hypot", -1),
  (isclose, "isclose", 2), (isfinite, "isfinite", 1), (isinf, "isinf", 1), (isnan, "isnan", 1),
  (isqrt, "isqrt", 1), (lcm, "lcm", -1), (ldexp, "ldexp", 2), (lgamma, "lgamma", 1),
  (log, "log", 1), (log10, "log10", 1), (log1p, "log1p", 1), (log2, "log2", 1),
  (modf, "modf", 1), (nextafter, "nextafter", 2), (perm, "perm", 1), (pow, "pow", 2),
  (prod, "prod", 1), (radians, "radians", 1), (remainder, "remainder", 2), (sin, "sin", 1),
  (sinh, "sinh", 1), (sqrt, "sqrt", 1), (tan, "tan", 1), (tanh, "tanh", 1), (trunc, "trunc", 1),
  (ulp, "ulp", 1)]

def name (f : MathFunction) : String :=
  ((table.find? (·.1 == f)).map (·.2.1)).getD ""

end MathFunction

inductive Action where
  | listPush | listPop | stringPush | stringPop
  | identity | emptyMap | toBoolean | toText | print | exit | toNumber | signal
  /-- Add to a multiple of ten. -/
  | tens (n : Nat)
  | math (f : MathFunction)
  /-- Read or set the signal with the given number. -/
  | signalCell (cell : Nat)
  /-- Make the instance of the class with the given number. -/
  | construct (cls : Nat)
  deriving DecidableEq

namespace Action

def name : Action → String
  | listPush => "db_list_push"
  | listPop => "db_list_pop"
  | stringPush => "db_str_push"
  | stringPop => "db_str_pop"
  | identity => "db_identity"
  | emptyMap => "db_map"
  | toBoolean => "db_to_boolean"
  | toText => "db_to_string"
  | print => "db_print"
  | exit => "db_exit"
  | toNumber => "db_to_number"
  | signal => "db_signal"
  | tens _ => "the_func"
  | math f => f.name
  | signalCell _ => "signal_func"
  | construct _ => "class_object_closure"

/-- The name of a procedure with the place where it was made. -/
def qualifiedName : Action → String
  | tens _ => "__number_function_maker.<locals>.the_func"
  | signalCell _ => "db_signal.<locals>.signal_func"
  | construct _ => "interpret_statement.<locals>.class_object_closure"
  | a => a.name

/-- Whether the procedure was made while a program ran, or belongs to one number only. -/
def isLocal : Action → Bool
  | tens _ | signalCell _ | construct _ => true
  | _ => false

end Action

end DreamBerd
