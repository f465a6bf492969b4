import DreamBerd.Clause.Read
import DreamBerd.Interpreter.Block
import DreamBerd.Program.Lasting
import DreamBerd.World.Start

/-!
# Programs

`Run.program` runs the parts of a file one after the other and then waits for events until none is
left. `World.ring` runs a timer to its end.
-/

namespace DreamBerd

/-- What each part of a file has been given by the parts before it, by the name of the part. -/
abbrev Deliveries := Ledger String (Ledger String ValueRef)

def Deliveries.add (d : Deliveries) (exported : List (String × String × ValueRef)) : Deliveries :=
  exported.foldl (fun d e => d.put e.1 (((d.get? e.1).getD .empty).put e.2.1 e.2.2)) d

namespace Run

/-- Begin a part, which is given the names of the language and the lasting variables. -/
def openPart (source : Source) (importable : Ledger String ValueRef) : Run ScopeRef := do
  modify fun w => { w with
    past := if w.part.globals.isSome then w.past ++ [w.part] else w.past
    part := .start source importable w.around.listeners.size }
  let x ← newGlobals
  loadStored x
  loadPublic x
  return x

def outermost (x : ScopeRef) : Run Context := do
  let queue ← newQueue
  let board ← newBoard
  return ⟨[x], queue, [board]⟩

def noteStarted (x : ScopeRef) : Run Unit :=
  modifySection fun p => { p with globals := some x }

/-- Run the code of a part; a plain complaint is one about the line that is running. -/
def runPart (i : Interpreter) (x : ScopeRef) (code : Code) : Run Unit := do
  noteStarted x
  let c ← outermost x
  tryCatch (do let _ ← i.run c code) fun f => do
    match f with
    | .plain complaint => complainHere complaint
    | f => throw f

def runParts (i : Interpreter) : Deliveries → List Program.Part → Run Unit
  | _, [] => return ()
  | d, ⟨name, text⟩ :: parts => do
    let source : Source := ⟨name, text⟩
    let code ← loadCode (← ofExcept source.clauses)
    let x ← openPart source ((d.get? name).getD .empty)
    runPart i x code
    runParts i (d.add (← get).part.exported) parts

def deliverAll (i : Interpreter) : List Event → Run Unit
  | [] => return ()
  | e :: es => do
    deliver i e
    deliverAll i es

/-- What is printed when a program is done and waits for events. -/
def finishedText : String :=
  Ansi.yellow ++ "Code has finished executing. Press ^C once or twice to stop waiting for " ++
    "when-statements and after-statements.\x1b[039m\n"

def program (i : Interpreter) (text : String) : Run Unit := do
  runParts i .empty (Program.parts text)
  emit finishedText
  let events := (← get).around.events
  modifyAround fun a => { a with events := [] }
  deliverAll i events

def evaluateText (i : Interpreter) (c : Context) (text : String) : Run ValueRef := do
  modifySection fun p => { p with source := { p.source with code := text }, line := 1 }
  let src ← source
  let tokens ← ofExcept src.tokens
  i.eval c false (← ofExcept (Expr.ofTokens src (trimTokens tokens)))

/-- What a timer did: the seconds that it slept, and the number of lifetimes that it left. -/
structure Ring where
  slept : List Int
  left : Nat
  fault : Option Fault

/-- The seconds of a lifetime: a number of seconds, or of minutes, the digits of which are written sixty
times. -/
def secondsOf (t : Timer) : Run Int := do
  let digits := t.lifetime.toList.dropLast
  match t.lifetime.toList.getLast?, digits.all Text.isDigit with
  | some 's', true => listedInt (String.ofList digits)
  | some 'm', true => listedInt (String.ofList (List.replicate 60 digits).flatten)
  | _, _ => complainAtLine .badTimeUnit t.line

def ring (t : Timer) : Run Ring := do
  let outcome : Except Fault Int ←
    tryCatch (do return .ok (← secondsOf t)) fun f => return .error f
  match outcome with
  | .ok n =>
    setVariable t.target ((← variableOf t.target).dropTag t.tag)
    return ⟨[n], (← variableOf t.target).lifetimes.length, none⟩
  | .error f => return ⟨[], (← variableOf t.target).lifetimes.length, some f⟩

def ringAll : List Timer → Run (List Ring)
  | [] => return []
  | t :: ts => do
    let r ← ring t
    return r :: (← ringAll ts)

end Run

def World.started (w : World) : List Section :=
  if w.part.globals.isSome then w.past ++ [w.part] else w.past

/-- The world for the next program: what was shared and stored stays. -/
def World.renew (w : World) : World :=
  { w with
    part := .start w.part.source .empty 0
    past := []
    output := ""
    pages := []
    around := { w.around with issues := [], timers := [], listeners := #[], ended := [] } }

/-- The number of steps after which the interpreter gives up. -/
def plentyOfSteps : Nat := 1000000000000

end DreamBerd
