import DreamBerd.Json
import DreamBerd.Predefined
import DreamBerd.Value

/-!
# The world of a program

A `World` holds all that a running program can reach: what is shared (`Store`), the part of a file
that is running (`Section`), and what lies around the program (`Surroundings`). A computation in it is
a `Run`; a computation that fails keeps the changes that it made.
-/

namespace DreamBerd

/-- A statement that waits for a condition, and the number that tells it apart. -/
structure Watcher where
  id : Nat
  condition : Expr
  code : Code

/-- What a watcher looks at: a name that is not bound yet, a value or a variable. -/
inductive WatchKey where
  | name (s : String)
  | value (r : ValueRef)
  | variable (r : VariableRef)
  deriving DecidableEq

/-- The watchers of a scope, by what they look at. -/
abbrev Board := Ledger WatchKey (List Watcher)

/-- A function that runs by turns: the next statement and the direction in which it goes on. -/
structure Job where
  code : Code
  scopes : List ScopeRef
  position : Int
  forward : Bool

abbrev Site := String × ScopeRef

/-- A statement that waits for the next values of names. The names that are still awaited are shared
by all vigils of the statement, `waiting` is their number. -/
structure Vigil where
  clause : ClauseRef
  form : Nat
  waiting : Nat
  scopes : List ScopeRef
  promise : Option ValueRef

/-- A class: its name, the members of its instance and where it was declared. -/
structure ClassCell where
  name : Token
  members : ScopeRef
  scopes : List ScopeRef
  boards : List BoardRef
  made : Bool

/-- All that is shared. -/
structure Store where
  values : Array Value
  scopes : Array Scope
  slots : Array (Variable ValueRef)
  clauses : Array (List Statement)
  boards : Array Board
  queues : Array (List Job)
  vigils : Array Vigil
  waits : Array (List Site)
  signals : Array ValueRef
  classes : Array ClassCell
  /-- The next number for lifetimes, watchers and trees. -/
  fresh : Nat
  deriving Inhabited

namespace Store

def empty : Store := ⟨#[], #[], #[], #[], #[], #[], #[], #[], #[], #[], 0⟩

def value (s : Store) (r : ValueRef) : Value := s.values[r.index]?.getD .undefined

def scope (s : Store) (r : ScopeRef) : Scope := s.scopes[r.index]?.getD .empty

def variableOf (s : Store) (r : VariableRef) : Variable ValueRef :=
  s.slots[r.index]?.getD ⟨"", [], []⟩

def forms (s : Store) (r : ClauseRef) : List Statement := s.clauses[r.index]?.getD []

end Store

/-- A number or a text that must not occur any more. -/
inductive Deleted where
  | number (n : Number)
  | text (s : String)

structure Section where
  source : Source
  line : Int
  vigils : Ledger Site Nat
  deleted : List Deleted
  exported : List (String × String × ValueRef)
  importable : Ledger String ValueRef
  /-- The number of the first listener of this part. -/
  firstListener : Nat
  /-- The outermost scope, once the part has started. -/
  globals : Option ScopeRef
  deriving Inhabited

def Section.start (source : Source) (importable : Ledger String ValueRef) (firstListener : Nat) :
    Section :=
  ⟨source, 1, .empty, [], [], importable, firstListener, none⟩

inductive Key where
  | char (c : Option String)
  | other (name : String)
  deriving DecidableEq

def Key.text : Key → String
  | char (some c) => c
  | char none => "None"
  | other name => name

/-- What happens at the keyboard and the mouse. -/
inductive Event where
  | key (k : Key) (pressed : Bool)
  | mouse (button : String) (pressed : Bool) (x y : Number)

inductive Trigger where
  | mouseClick | mouseDown | mouseUp | keyClick | keyDown | keyUp
  deriving DecidableEq

namespace Trigger

def word : Trigger → String
  | mouseClick => "mouseclick"
  | mouseDown => "mousedown"
  | mouseUp => "mouseup"
  | keyClick => "keyclick"
  | keyDown => "keydown"
  | keyUp => "keyup"

def ofWord? (s : String) : Option Trigger :=
  [mouseClick, mouseDown, mouseUp, keyClick, keyDown, keyUp].find? (·.word == s)

end Trigger

/-- Code that runs when something happens, and what is held down at the moment. -/
structure Listener where
  trigger : Trigger
  code : Code
  scopes : List ScopeRef
  boards : List BoardRef
  alive : Bool
  buttons : List String
  keys : List Key

/-- A lifetime that ends after some time. -/
structure Timer where
  lifetime : String
  target : VariableRef
  tag : Nat
  line : Int

/-- A value as it is at one time, with all that is shared at that time. -/
structure Snapshot where
  store : Store
  value : ValueRef

/-- The values that outlive programs: the list of variables, and the values by address. A value that
could not be written is missing. -/
structure Archive where
  list : Option String
  values : Option (List (String × Option Snapshot))

structure Surroundings where
  /-- The numbers that decide what is maybe; zero when they are used up. -/
  chances : List Float
  nextAddress : Nat
  currency : Option String
  published : List (String × String)
  hasToken : Bool
  hasInput : Bool
  hasGlobals : Bool
  archive : Option Archive
  events : List Event
  issues : List (String × Json)
  timers : List Timer
  listeners : Array Listener
  /-- For each event, the listeners that it ended and why. -/
  ended : List (List (Nat × Fault))
  delivering : Bool
  deriving Inhabited

/-- All that a running program can reach. -/
structure World where
  store : Store
  part : Section
  past : List Section
  around : Surroundings
  output : String
  /-- What was printed before each time that a line was asked for. -/
  pages : List String
  predefined : Ledger String ValueRef
  deriving Inhabited

abbrev Run := EStateM Fault World

namespace Run

def ofExcept {α : Type} : Except Fault α → Run α
  | .ok a => pure a
  | .error f => throw f

def store : Run Store := return (← get).store

@[inline] def modifyStore (f : Store → Store) : Run Unit :=
  modify fun w => { w with store := f w.store }

@[inline] def modifySection (f : Section → Section) : Run Unit :=
  modify fun w => { w with part := f w.part }

@[inline] def modifyAround (f : Surroundings → Surroundings) : Run Unit :=
  modify fun w => { w with around := f w.around }

def freshId : Run Nat :=
  modifyGet fun w => (w.store.fresh, { w with store := { w.store with fresh := w.store.fresh + 1 } })

/-! ## Shared things -/

def value (r : ValueRef) : Run Value := return (← get).store.value r

def scope (r : ScopeRef) : Run Scope := return (← get).store.scope r

def variableOf (r : VariableRef) : Run (Variable ValueRef) :=
  return (← get).store.variableOf r

def forms (r : ClauseRef) : Run (List Statement) := return (← get).store.forms r

def board (r : BoardRef) : Run Board := return ((← get).store.boards[r.index]?).getD .empty

def jobs (r : QueueRef) : Run (List Job) := return ((← get).store.queues[r.index]?).getD []

def setValue (r : ValueRef) (v : Value) : Run Unit :=
  modifyStore fun s => { s with values := s.values.setIfInBounds r.index v }

def modifyScope (r : ScopeRef) (f : Scope → Scope) : Run Unit :=
  modifyStore fun s => { s with scopes := s.scopes.modify r.index f }

def setVariable (r : VariableRef) (v : Variable ValueRef) : Run Unit :=
  modifyStore fun s => { s with slots := s.slots.setIfInBounds r.index v }

def setForms (r : ClauseRef) (fs : List Statement) : Run Unit :=
  modifyStore fun s => { s with clauses := s.clauses.setIfInBounds r.index fs }

def setBoard (r : BoardRef) (b : Board) : Run Unit :=
  modifyStore fun s => { s with boards := s.boards.setIfInBounds r.index b }

def setJobs (r : QueueRef) (js : List Job) : Run Unit :=
  modifyStore fun s => { s with queues := s.queues.setIfInBounds r.index js }

def newValue (v : Value) : Run ValueRef :=
  modifyGet fun w =>
    (⟨w.store.values.size⟩, { w with store := { w.store with values := w.store.values.push v } })

def newScope (x : Scope) : Run ScopeRef :=
  modifyGet fun w =>
    (⟨w.store.scopes.size⟩, { w with store := { w.store with scopes := w.store.scopes.push x } })

def newVariable (v : Variable ValueRef) : Run VariableRef :=
  modifyGet fun w =>
    (⟨w.store.slots.size⟩,
      { w with store := { w.store with slots := w.store.slots.push v } })

def newClause (fs : List Statement) : Run ClauseRef :=
  modifyGet fun w =>
    (⟨w.store.clauses.size⟩,
      { w with store := { w.store with clauses := w.store.clauses.push fs } })

def newBoard : Run BoardRef :=
  modifyGet fun w =>
    (⟨w.store.boards.size⟩,
      { w with store := { w.store with boards := w.store.boards.push .empty } })

def newQueue : Run QueueRef :=
  modifyGet fun w =>
    (⟨w.store.queues.size⟩,
      { w with store := { w.store with queues := w.store.queues.push [] } })

/-! ## New values -/

def newNumber (n : Number) : Run ValueRef := newValue (.number n)

def newTruth (t : Truth) : Run ValueRef := newValue (.boolean t)

def newUndefined : Run ValueRef := newValue .undefined

def lengthEntry (n : Nat) : Run Entry := return .named "length" (← newNumber (.int n))

/-- The members of a new list or string of `n` elements, over those given. -/
def newMembers (given : Scope) (push pop : Action) (n : Nat) : Run ScopeRef := do
  let push ← newValue (.builtin 2 push true)
  let pop ← newValue (.builtin 2 pop true)
  newScope <| ((given.put "push" (.named "push" push)).put "pop" (.named "pop" pop)).put "length"
    (← lengthEntry n)

def newTextWith (given : Scope) (s : String) : Run ValueRef := do
  let row := CharRow.ofText s
  newValue (.string row (← newMembers given .stringPush .stringPop row.chars.length))

def newText (s : String) : Run ValueRef := newTextWith .empty s

def newList (items : List ValueRef) : Run ValueRef := do
  newValue (.list (Row.ofList items) (← newMembers .empty .listPush .listPop items.length))

/-! ## The running part -/

def source : Run Source := return (← get).part.source

def line : Run Int := return (← get).part.line

def complainHere {α : Type} (c : Complaint) : Run α := do
  let x := (← get).part
  throw (x.source.atLine c x.line)

def complainAt {α : Type} (c : Complaint) (t : Token) : Run α := do
  throw ((← source).atToken c t)

def complainAtLine {α : Type} (c : Complaint) (n : Int) : Run α := do
  throw ((← source).atLine c n)

def complain {α : Type} (c : Complaint) : Run α := throw (.plain c)

def breakDown {α : Type} (b : Breakdown) : Run α := throw (.breakdown b)

def emit (s : String) : Run Unit := modify fun w => { w with output := w.output ++ s }

def chance : Run Float :=
  modifyGet fun w =>
    match w.around.chances with
    | [] => (0.0, w)
    | c :: cs => (c, { w with around := { w.around with chances := cs } })

/-- Whether something that is maybe comes out true. -/
def luck : Run Bool := return (← chance) < 0.5

end Run

end DreamBerd
