import DreamBerd.World.Convert
import DreamBerd.World.Copy

/-!
# Names

A name is looked up in scopes from the innermost outward. A name with points leads through the
members of values. What is no name is a literal: a number if it consists of digits, a text otherwise.
-/

namespace DreamBerd

/-- Cut a text at each of the given characters. -/
def splitChars (c : Char) : List Char → List (List Char)
  | [] => [[]]
  | d :: ds =>
    if d = c then [] :: splitChars c ds
    else
      match splitChars c ds with
      | [] => [[d]]
      | part :: parts => (d :: part) :: parts

/-- The parts of a name, between its points. -/
def nameParts (name : String) : List String := (splitChars '.' name.toList).map String.ofList

namespace Store

def entryValue (s : Store) : Entry → Except Fault ValueRef
  | .predefined v => .ok v
  | .named _ v => .ok v
  | .variable r => (s.variableOf r).value

def innermost (s : Store) (name : String) : List ScopeRef → Option (Entry × ScopeRef)
  | [] => none
  | x :: xs =>
    match (s.scope x).get? name with
    | some e => some (e, x)
    | none => innermost s name xs

/-- Go through the members of the value of an entry. -/
def member (s : Store) (e : Entry) : List String → Except Fault (Option Entry)
  | [] => .ok (some e)
  | name :: names => do
    match (s.value (← s.entryValue e)).members? with
    | none => return none
    | some m =>
      match (s.scope m).get? name with
      | none => return none
      | some e => member s e names

def lookup (s : Store) (scopes : List ScopeRef) (name : String) : Except Fault (Option Entry) :=
  match nameParts name with
  | base :: names@(_ :: _) =>
    match s.innermost base scopes with
    | some (e, _) => s.member e names
    | none => .ok none
  | _ => .ok ((s.innermost name scopes).map (·.1))

/-- Go through the members of the value of an entry, keeping the scope of each. -/
def memberWithin (s : Store) (e : Entry) (x : ScopeRef) :
    List String → Except Fault (Option Entry × Option ScopeRef)
  | [] => .ok (some e, some x)
  | name :: names => do
    match (s.value (← s.entryValue e)).members? with
    | none => return (none, none)
    | some m =>
      match (s.scope m).get? name with
      | none => return (none, some m)
      | some e => memberWithin s e m names

/-- What a name stands for, and the scope that it was found in or would be found in. -/
def lookupWithin (s : Store) (scopes : List ScopeRef) (name : String) :
    Except Fault (Option Entry × Option ScopeRef) :=
  match nameParts name with
  | base :: names@(_ :: _) =>
    match s.innermost base scopes with
    | some (e, x) => s.memberWithin e x names
    | none => .ok (none, scopes.head?)
  | _ =>
    match s.innermost name scopes with
    | some (e, x) => .ok (some e, some x)
    | none => .ok (none, scopes.head?)

/-- Whether the members of a string are those of a new one with `n` characters. -/
def hasFreshMembers (s : Store) (members : ScopeRef) (n : Nat) : Bool :=
  let x := s.scope members
  let isBuiltin := fun (name : String) (a : Action) =>
    match x.get? name with
    | some (.named name' v) =>
      name == name' &&
        match s.value v with
        | .builtin 2 b true => a == b
        | _ => false
    | _ => false
  x.size == 3 && isBuiltin "push" .stringPush && isBuiltin "pop" .stringPop &&
    match x.get? "length" with
    | some (.named "length" v) =>
      match s.value v with
      | .number k => k == .int n
      | _ => false
    | _ => false

def isDeleted (s : Store) (deleted : List Deleted) (r : ValueRef) : Bool :=
  !deleted.isEmpty &&
    match s.value r with
    | .number n =>
      deleted.any fun d =>
        match d with
        | .number m => m == n
        | .text _ => false
    | .string row members =>
      let text := row.text
      deleted.any (fun d =>
        match d with
        | .text t => t == text
        | .number _ => false) &&
        row.isFresh && s.hasFreshMembers members row.chars.length
    | _ => false

end Store

inductive Literal where
  | number (n : Number)
  | text (s : String)

/-- The literal of a text: a number if it has digits only, up to one point between them. -/
def Literal.ofText (s : String) : Except Fault Literal :=
  let parts := s.splitOn "."
  if parts.length ≤ 2 && parts.all Text.isDigits then
    let n? := if parts.length = 1 then (Decimal.readInt? s).map Number.int
      else (Decimal.readFloat? s).map Number.real
    match n? with
    | some n => .ok (.number n)
    | none => .error (.breakdown .value)
  else .ok (.text s)

namespace Run

def lookup (scopes : List ScopeRef) (name : String) : Run (Option Entry) := do
  ofExcept ((← store).lookup scopes name)

def lookupWithin (scopes : List ScopeRef) (name : String) :
    Run (Option Entry × Option ScopeRef) := do
  ofExcept ((← store).lookupWithin scopes name)

def entryValue (e : Entry) : Run ValueRef := do ofExcept ((← store).entryValue e)

def keywordOf? (e : Option Entry) : Run (Option String) := do
  match e with
  | none => return none
  | some e =>
    match ← value (← entryValue e) with
    | .keyword word => return some word
    | _ => return none

def deletedText (r : ValueRef) : Run String := do
  match ← value r with
  | .number n => ofExcept n.text
  | .string row _ => return row.text
  | _ => return ""

def isDeleted (r : ValueRef) : Run Bool := do
  let w ← get
  return w.store.isDeleted w.part.deleted r

def literal (t : Token) : Run ValueRef := do
  let r ←
    match ← ofExcept (Literal.ofText t.text) with
    | .number n => newNumber n
    | .text s => newText s
  if ← isDeleted r then complainAtLine (.deletedValue (← deletedText r)) t.line
  return r

/-- The value of a token: what its name stands for, or a literal. A promise stands for a copy of
what it holds. -/
def valueOfToken (scopes : List ScopeRef) (t : Token) : Run ValueRef := do
  match ← lookup scopes t.text with
  | some e =>
    let r ← entryValue e
    match ← value r with
    | .promise none => newUndefined
    | .promise (some v) => copyValue v
    | _ => return r
  | none => literal t

end Run

end DreamBerd
