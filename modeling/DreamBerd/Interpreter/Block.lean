import DreamBerd.Interpreter.Statement
import DreamBerd.World.Lifetimes

/-!
# Blocks

A block runs statement after statement, turning round at each `reverse`. After each statement every
job of the block runs its next statement.

`interpreter n` is the interpreter that gives up after `n` steps.
-/

namespace DreamBerd

namespace Run

def returnValue (i : Interpreter) (c : Context) (clause : ClauseRef) (n : Nat) (e : Expression) :
    Run ValueRef := do
  let (tree, awaited) ← replaceNext c.scopes (← treeOf e)
  let (tree, kept) ← keepPrevious c.scopes awaited.allNames tree
  let renamed := awaited.renamed ++ kept.renamed
  if !renamed.isEmpty then
    setForms clause ((← forms clause).map (renameStatement renamed))
  if !awaited.sites.isEmpty then
    let promise ← newValue (.promise none)
    keepVigil i clause n awaited kept.scope (some promise) c.scopes
    return promise
  else withAwaited i c awaited kept (i.eval c false tree)

def isReverse : Statement → Bool
  | .reverse .. => true
  | _ => false

/-- What comes of the turn of a statement: the block ends with a value, or it goes on after the
statement was taken in a form. -/
inductive Turn where
  | ends (result : ValueRef)
  | passes (f : Statement)

def judge (f : Statement) : Option ValueRef → Run Turn
  | none => return .passes f
  | some r => do if (← value r).isPresent then return .ends r else return .passes f

/-- The turn of a statement of the block itself. -/
def takeTurn (i : Interpreter) (c : Context) (clause : ClauseRef) : Run Turn := do
  tick c.scopes
  match ← classify c.scopes (← forms clause) with
  | none => complainHere .unreadableForm
  | some (n, f) =>
    markLine f
    match f with
    | .returns _ e _ => return .ends (← returnValue i c clause n e)
    | .reverse k d => return .passes (.reverse k d)
    | f => judge f (← execute i c clause n f)

def directionAfter (f : Statement) (forward : Bool) : Bool := if isReverse f then !forward else forward

def onward (position : Int) (forward : Bool) : Int := position + if forward then 1 else -1

/-! ## Jobs -/

/-- A statement of a job that has had its turn: the number of the job, the position of the statement,
the statement itself and the form that it took. -/
structure Act where
  job : Nat
  statement : Nat
  clause : ClauseRef
  form : Statement

/-- The turn of a job of the block; gives the statement that has been run. -/
def jobTurn (i : Interpreter) (c : Context) (n : Nat) : Run (Option Act) := do
  match (← jobs c.queue)[n]? with
  | none => return none
  | some job =>
    if 0 ≤ job.position && job.position < job.code.length then
      match job.code[job.position.toNat]? with
      | none => return none
      | some clause =>
        match ← classify job.scopes (← forms clause) with
        | none => complainHere .unreadableForm
        | some (_, .returns ..) => complainHere .asyncReturn
        | some (k, f) =>
          let forward := directionAfter f job.forward
          let position := onward job.position forward
          setJobs c.queue ((← jobs c.queue).set n { job with position, forward })
          let _ ← execute i { c with scopes := job.scopes } clause k f
          return some ⟨n, job.position.toNat, clause, f⟩
    else return none

def jobTurns (i : Interpreter) (c : Context) : List Nat → Run (List Act)
  | [] => return []
  | n :: ns => do
    let act ← jobTurn i c n
    return act.toList ++ (← jobTurns i c ns)

def allTurns (i : Interpreter) (c : Context) : Run (List Act) := do
  let acts ← jobTurns i c (List.range (← jobs c.queue).length)
  exitIfDead
  return acts

/-- Run a block from a position on, in one direction until a statement reverses it. At most `fuel`
statements are run. -/
def runFrom (i : Interpreter) (c : Context) (code : Code) :
    Nat → Int → Bool → Run (Option ValueRef)
  | 0, _, _ => throw .outOfFuel
  | fuel + 1, position, forward => do
    if 0 ≤ position && position < code.length then
      match code[position.toNat]? with
      | none => return none
      | some clause =>
        match ← takeTurn i c clause with
        | .ends result => return some result
        | .passes f =>
          let _ ← allTurns i c
          let forward := directionAfter f forward
          runFrom i c code fuel (onward position forward) forward
    else return none

end Run

def interpreter : Nat → Interpreter
  | 0 =>
    { eval := fun _ _ _ => throw .outOfFuel
      run := fun _ _ => throw .outOfFuel
      resume := fun _ _ => throw .outOfFuel }
  | fuel + 1 =>
    { eval := fun c raw e => Run.evaluate (interpreter fuel) c raw e
      run := fun c code => Run.runFrom (interpreter fuel) c code fuel 0 true
      resume := fun c n => Run.resumeVigil (interpreter fuel) c n }

end DreamBerd
