import DreamBerd.CharRow
import DreamBerd.Datum
import DreamBerd.Truth
import DreamBerd.Variable

/-!
# Values

Values are shared: two names can hold the same list, and a change through one is seen through the
other. What programs hold are therefore references, and a `Value` is what a reference stands for at
the moment. Scopes, variables and clauses are shared in the same way.
-/

namespace DreamBerd

structure ValueRef where
  index : Nat
  deriving DecidableEq, Inhabited

structure ScopeRef where
  index : Nat
  deriving DecidableEq, Inhabited

structure VariableRef where
  index : Nat
  deriving DecidableEq

structure ClauseRef where
  index : Nat
  deriving DecidableEq

structure BoardRef where
  index : Nat
  deriving DecidableEq

structure QueueRef where
  index : Nat
  deriving DecidableEq, Inhabited

inductive MapKey where
  | text (s : String)
  | number (n : Number)

def Number.isNan : Number → Bool
  | real x => Binary64.shape x == .nan
  | _ => false

/-- Keys are equal if their texts or numbers are; the number that is none equals itself. -/
def MapKey.same : MapKey → MapKey → Bool
  | text s, text t => s == t
  | number m, number n => m == n || (m.isNan && n.isNan)
  | _, _ => false

instance : BEq MapKey := ⟨MapKey.same⟩

inductive Value where
  | number (n : Number)
  | string (row : CharRow) (members : ScopeRef)
  | list (row : Row ValueRef) (members : ScopeRef)
  | boolean (t : Truth)
  | undefined
  | blank
  | object (className : String) (members : ScopeRef)
  | map (entries : Ledger MapKey ValueRef)
  | keyword (word : String)
  | function (args : List String) (code : List ClauseRef) (isAsync : Bool)
  | builtin (arity : Int) (action : Action) (modifiesCaller : Bool)
  | promise (value : Option ValueRef)
  /-- A datum that is no value of the language. -/
  | bare (d : Datum)

namespace Value

def recordType? : Value → Option RecordType
  | number _ => some .number
  | string .. => some .string
  | list .. => some .list
  | boolean _ => some .boolean
  | undefined => some .undefined
  | blank => some .blank
  | object .. => some .object
  | map _ => some .map
  | keyword _ => some .keyword
  | function .. => some .function
  | builtin .. => some .builtin
  | promise _ => some .promise
  | bare _ => none

def number? : Value → Option Number
  | number n => some n
  | _ => none

def members? : Value → Option ScopeRef
  | string _ m | list _ m | object _ m => some m
  | _ => none

def isMutable : Value → Bool
  | number _ | string .. | list .. => true
  | _ => false

def isIndexable : Value → Bool
  | number _ | string .. | list .. | map _ => true
  | _ => false

end Value

/-- What a name stands for in a scope. -/
inductive Entry where
  | predefined (value : ValueRef)
  | named (name : String) (value : ValueRef)
  | variable (ref : VariableRef)

abbrev Scope := Ledger String Entry

/-- An expression in a statement, which is read when it is first needed. Trees that have been read
are told apart by a number. -/
inductive Expression where
  | source (tokens : List Token)
  | built (id : Nat) (tree : Expr)

abbrev Statement := Form Expression (List ClauseRef)

abbrev Code := List ClauseRef

end DreamBerd
