import DreamBerd.World.Lookup
import DreamBerd.World.Perform

/-!
# Interpreters

Running code and evaluating expressions depend on each other without end. An `Interpreter` offers
both to the modules that define a single step of either.
-/

namespace DreamBerd

/-- Where something runs: the scopes and the watchers, innermost first, and the jobs of the block. -/
structure Context where
  scopes : List ScopeRef
  queue : QueueRef
  boards : List BoardRef
  deriving Inhabited

structure Interpreter where
  /-- The value of an expression; a text that stands alone keeps its escape sequences if `raw`. -/
  eval : Context → Bool → Expr → Run ValueRef
  /-- Run code; gives the value that it returns, if it returns one. -/
  run : Context → Code → Run (Option ValueRef)
  /-- Go on with the statement of the vigil with a number. -/
  resume : Context → Nat → Run Unit

namespace Run

def enter (scopes : List ScopeRef) (boards : List BoardRef) (names : Scope) : Run Context := do
  let x ← newScope names
  let queue ← newQueue
  let board ← newBoard
  return ⟨x :: scopes, queue, board :: boards⟩

def orUndefined (r : Option ValueRef) : Run ValueRef := do
  match r with
  | none => newUndefined
  | some r => if (← value r).isPresent then return r else newUndefined

/-- The names of parameters with their arguments. -/
def parameterScope (params : List String) (args : List ValueRef) : Scope :=
  .ofList ((params.zip args).map fun p => (p.1, .named p.1 p.2))

/-- Run code in a scope of its own if a value is true, or if it is maybe and chance wants it. -/
def runIf (i : Interpreter) (scopes : List ScopeRef) (boards : List BoardRef) (condition : ValueRef)
    (code : Code) : Run (Option ValueRef) := do
  let wanted ←
    match ← truthOf condition with
    | .yes => pure true
    | .no => pure false
    | .maybe => luck
  if wanted then i.run (← enter scopes boards .empty) code else return none

/-- Refuse to go on if an entry is a variable whose value cannot be edited. -/
def checkEditable (e : Option Entry) (refuse : Run Unit) : Run Unit := do
  match e with
  | some (.variable r) => if !(← ofExcept (← variableOf r).current).canEditValue then refuse
  | _ => pure ()

/-! ## Watchers -/

def watchersOf (boards : List BoardRef) (key : WatchKey) : Run (List Watcher) := do
  let found ← boards.reverse.mapM fun b => do return ((← board b).get? key).getD []
  return found.flatten

def addWatcher (b : BoardRef) (key : WatchKey) (w : Watcher) : Run Unit := do
  let x ← board b
  setBoard b (x.put key ((x.get? key).getD [] ++ [w]))

def addWatcherTo (boards : List BoardRef) (key : WatchKey) (w : Watcher) : Run Unit := do
  match boards with
  | [] => breakDown .position
  | b :: _ => if (← board b).contains key then addWatcher b key w else breakDown .key

def withoutLast (id : Nat) (ws : List Watcher) : List Watcher :=
  match ws.reverse.findIdx? (·.id == id) with
  | some n => (ws.reverse.eraseIdx n).reverse
  | none => ws

def removeWatcher (boards : List BoardRef) (key : WatchKey) (id : Nat) : Run Unit := do
  for b in boards do
    let x ← board b
    match x.get? key with
    | some ws => setBoard b (x.put key (withoutLast id ws))
    | none => pure ()

def forgetKey (boards : List BoardRef) (key : WatchKey) : Run Unit := do
  for b in boards do
    let x ← board b
    if x.contains key then setBoard b (x.erase key)

/-- Evaluate the condition of a watcher, and run its code if it holds. -/
def fire (i : Interpreter) (c : Context) (w : Watcher) : Run Unit := do
  let condition ← i.eval c false w.condition
  let _ ← runIf i c.scopes c.boards condition w.code

end Run

end DreamBerd
