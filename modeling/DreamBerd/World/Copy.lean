import DreamBerd.World

/-!
# Deep copies

`Run.copyValue` makes a copy of a value that shares nothing with it, apart from procedures. What was
shared inside the value is shared in the same way inside the copy: all that the value leads to is
found first, and then added to the store once more, with the references in it redirected to what was
added. `Run.bringBack` does the same with a value as it was at another time.
-/

namespace DreamBerd

/-- Something that is shared. -/
inductive Cell where
  | value (r : ValueRef)
  | scope (r : ScopeRef)
  | slot (r : VariableRef)
  | clause (r : ClauseRef)
  deriving DecidableEq

namespace Cell

def value? : Cell → Option ValueRef
  | value r => some r
  | _ => none

def scope? : Cell → Option ScopeRef
  | scope r => some r
  | _ => none

def slot? : Cell → Option VariableRef
  | slot r => some r
  | _ => none

def clause? : Cell → Option ClauseRef
  | clause r => some r
  | _ => none

def ofEntry : Entry → Cell
  | .predefined v | .named _ v => value v
  | .variable r => slot r

def ofForm : Statement → List Cell
  | .function _ _ _ code _ | .classDeclaration _ _ code | .conditional _ _ code | .when _ _ code
  | .after _ _ code => code.map clause
  | _ => []

end Cell

namespace Store

/-- What a cell leads to at once. -/
def parts (s : Store) : Cell → List Cell
  | .value r =>
    match s.value r with
    | .string _ members | .object _ members => [.scope members]
    | .list row members => row.items.map .value ++ [.scope members]
    | .map entries => entries.entries.map fun e => .value e.2
    | .function _ code _ => code.map .clause
    | .promise (some v) => [.value v]
    | _ => []
  | .scope r => (s.scope r).entries.map fun e => .ofEntry e.2
  | .slot r =>
    let v := s.variableOf r
    (v.lifetimes.map fun l => .value l.value) ++ v.previous.map .value
  | .clause r => (s.forms r).flatMap Cell.ofForm

/-- Add to the cells that were found all that those found last lead to, for a number of rounds or
until nothing is new. -/
def findFrom (s : Store) : Nat → List Cell → List Cell → List Cell
  | 0, found, _ => found
  | rounds + 1, found, last =>
    match ((last.flatMap s.parts).filter (!found.contains ·)).eraseDups with
    | [] => found
    | new => findFrom s rounds (found ++ new) new

/-- A value and all that it leads to. Every round but the last two finds a cell of the store. -/
def found (s : Store) (r : ValueRef) : List Cell :=
  s.findFrom (s.values.size + s.scopes.size + s.slots.size + s.clauses.size + 2) [.value r]
    [.value r]

end Store

/-- Where references lead in a copy, and the numbers of copied trees. -/
structure Redirection where
  value : ValueRef → ValueRef
  scope : ScopeRef → ScopeRef
  slot : VariableRef → VariableRef
  clause : ClauseRef → ClauseRef
  tree : Nat → Nat

namespace Redirection

def ofValue (f : Redirection) : Value → Value
  | .string row members => .string row (f.scope members)
  | .list row members => .list { row with items := row.items.map f.value } (f.scope members)
  | .object name members => .object name (f.scope members)
  | .map entries => .map (entries.map f.value)
  | .function args code isAsync => .function args (code.map f.clause) isAsync
  | .promise (some v) => .promise (some (f.value v))
  | v => v

def ofEntry (f : Redirection) (name : String) : Entry → Entry
  | .predefined v => .named name (f.value v)
  | .named n v => .named n (f.value v)
  | .variable r => .variable (f.slot r)

def ofVariable (f : Redirection) (v : Variable ValueRef) : Variable ValueRef :=
  { v with
    lifetimes := v.lifetimes.map fun l => { l with value := f.value l.value }
    previous := v.previous.map f.value }

def ofExpression (f : Redirection) : Expression → Expression
  | .source tokens => .source tokens
  | .built id tree => .built (f.tree id) tree

def ofStatement (f : Redirection) (x : Statement) : Statement :=
  x.map f.ofExpression (·.map f.clause)

def into (s : Store) (cells : List Cell) : Redirection where
  value r := ((cells.filterMap Cell.value?).idxOf? r).elim r fun n => ⟨s.values.size + n⟩
  scope r := ((cells.filterMap Cell.scope?).idxOf? r).elim r fun n => ⟨s.scopes.size + n⟩
  slot r := ((cells.filterMap Cell.slot?).idxOf? r).elim r fun n => ⟨s.slots.size + n⟩
  clause r := ((cells.filterMap Cell.clause?).idxOf? r).elim r fun n => ⟨s.clauses.size + n⟩
  tree id := s.fresh + id

end Redirection

namespace Store

def withCopies (s source : Store) (cells : List Cell) : Store :=
  let f := Redirection.into s cells
  let clauses := cells.filterMap Cell.clause?
  { s with
    values := s.values ++
      ((cells.filterMap Cell.value?).map fun r => f.ofValue (source.value r)).toArray
    scopes := s.scopes ++
      ((cells.filterMap Cell.scope?).map fun r => (source.scope r).mapWithKey f.ofEntry).toArray
    slots := s.slots ++
      ((cells.filterMap Cell.slot?).map fun r => f.ofVariable (source.variableOf r)).toArray
    clauses := s.clauses ++ (clauses.map fun r => (source.forms r).map f.ofStatement).toArray
    fresh := if clauses.isEmpty then s.fresh else s.fresh + source.fresh }

end Store

namespace Run

def bringBack (x : Snapshot) : Run ValueRef :=
  modifyGet fun w =>
    let cells := x.store.found x.value
    ((Redirection.into w.store cells).value x.value,
      { w with store := w.store.withCopies x.store cells })

def copyValue (r : ValueRef) : Run ValueRef := do bringBack ⟨← store, r⟩

end Run

end DreamBerd
