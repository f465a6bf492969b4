import DreamBerd.Action
import DreamBerd.Ledger
import DreamBerd.Number
import DreamBerd.Truth

/-!
# Predefined names

The names that every program starts with. Every way of leaving letters out of `function` is a
keyword that declares functions.
-/

namespace DreamBerd

inductive Predefined where
  | keyword (word : String)
  | builtin (arity : Int) (action : Action)
  | number (n : Number)
  | boolean (t : Truth)
  | undefined
  | blank

namespace Predefined

/-- All ways of leaving elements out of a list. -/
def selections : List Char → List (List Char)
  | [] => [[]]
  | c :: cs => (selections cs).flatMap fun s => [s, c :: s]

def functionWords : List String :=
  (selections "function".toList).map fun cs =>
    if cs.isEmpty then "fn" else String.ofList cs

def keywordWords : List String :=
  ["class", "className", "after", "const", "var", "when", "if", "async", "return", "delete",
    "await", "previous", "next", "reverse", "export", "import"]

def functions : List (String × Predefined) :=
  [("new", builtin 1 .identity), ("current", builtin 1 .identity), ("Map", builtin 0 .emptyMap),
    ("Boolean", builtin 1 .toBoolean), ("String", builtin 1 .toText), ("print", builtin (-1) .print),
    ("exit", builtin 0 .exit), ("Number", builtin 1 .toNumber), ("use", builtin 1 .signal)]

def constants : List (String × Predefined) :=
  [("true", boolean .yes), ("maybe", boolean .maybe), ("false", boolean .no),
    ("undefined", undefined), ("", blank)]

def mathFunctions : List (String × Predefined) :=
  MathFunction.table.map fun f => (f.2.1, builtin f.2.2 (.math f.1))

def mathConstants : List (String × Predefined) :=
  [("e", number (.real 2.718281828459045)), ("pi", number (.real 3.141592653589793)),
    ("tau", number (.real 6.283185307179586)), ("inf", number (.real Binary64.infinity)),
    ("nan", number (.real Binary64.nan))]

def smallNumbers : List (String × Predefined) :=
  ["zero", "one", "two", "three", "four", "five", "six", "seven", "eight", "nine", "ten", "eleven",
    "twelve", "thirteen", "fourteen", "fifteen", "sixteen", "seventeen", "eighteen",
    "ninteen"].zipIdx.map fun p => (p.1, number (.int p.2))

def tensFunctions : List (String × Predefined) :=
  ["twenty", "thirty", "forty", "fifty", "sixty", "seventy", "eighty", "ninety"].zipIdx.map
    fun p => (p.1, builtin 1 (.tens (10 * p.2 + 20)))

def table : Ledger String Predefined :=
  Ledger.ofList <|
    (keywordWords ++ functionWords).map (fun w => (w, keyword w)) ++ functions ++ constants ++
      mathFunctions ++ mathConstants ++ smallNumbers ++ tensFunctions

def publishedAction? (name : String) : Option Action :=
  match name with
  | "db_list_pop" => some .listPop
  | "db_list_push" => some .listPush
  | "db_str_pop" => some .stringPop
  | "db_str_push" => some .stringPush
  | _ =>
    match table.get? name with
    | some (.builtin _ a) => some a
    | _ => none

end Predefined

end DreamBerd
