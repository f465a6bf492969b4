import DreamBerd.Interpreter

/-!
# Calls
-/

namespace DreamBerd.Run

def construct (i : Interpreter) (cls : ClassCell) (instance_ : ValueRef) (args : List ValueRef)
    (constructor : Entry) : Run Unit := do
  match ← value (← entryValue constructor) with
  | .function params code _ =>
    let args := instance_ :: args
    if params.length > args.length then complainHere (.tooFewArguments params.length)
    let c ← enter cls.scopes cls.boards (parameterScope params args)
    let _ ← i.run c code
    if (← scope cls.members).contains cls.name.text then
      modifyScope cls.members (·.erase cls.name.text)
    else breakDown .key
  | _ => complainHere .constructorIsVariable

/-- What is left of the making of an instance when the class has been marked. -/
def finishInstance (i : Interpreter) (cls : ClassCell) (args : List ValueRef) : Run ValueRef := do
  let object ← newValue (.object cls.name.text cls.members)
  match (← scope cls.members).get? cls.name.text with
  | some constructor => construct i cls object args constructor
  | none => pure ()
  return object

def makeInstance (i : Interpreter) (n : Nat) (args : List ValueRef) : Run ValueRef := do
  match (← store).classes[n]? with
  | none => breakDown .kind
  | some cls =>
    if cls.made then complainHere (.secondInstance cls.name.shown)
    modifyStore fun s => { s with classes := s.classes.setIfInBounds n { cls with made := true } }
    finishInstance i cls args

/-- Call a function that is not asynchronous, or that is awaited. -/
def callValue (i : Interpreter) (c : Context) (site : Token) (f : Value) (args : List ValueRef) :
    Run ValueRef := do
  match f with
  | .builtin arity action _ =>
    if arity > args.length then complainAt (.tooFewArguments arity) site
    let args := if 0 ≤ arity then args.take arity.toNat else args
    match action with
    | .construct n => makeInstance i n args
    | action => orUndefined (← perform action args)
  | .function params code _ =>
    if params.length > args.length then complainAt (.tooFewArguments params.length) site
    let inner ← enter c.scopes c.boards (parameterScope params args)
    orUndefined (← i.run inner code)
  | _ => breakDown .field

def queueCall (c : Context) (site : Token) (params : List String) (code : Code)
    (args : List ValueRef) : Run Unit := do
  if params.length > args.length then complainAt (.tooFewArguments params.length) site
  let x ← newScope (parameterScope params args)
  setJobs c.queue ((← jobs c.queue) ++ [⟨code, x :: c.scopes, 0, true⟩])

def checkCaller (c : Context) (caller : Option String) : Run Unit := do
  match caller with
  | some name => checkEditable (← lookup c.scopes name) (complainHere .cannotEdit)
  | none => pure ()

/-- Call a function that changes its first argument, and tell those who watch it. -/
def callAndTell (i : Interpreter) (c : Context) (site : Token) (f : Value) (args : List ValueRef) :
    Run ValueRef := do
  let result ← callValue i c site f args
  match args with
  | [] => breakDown .position
  | r :: _ =>
    for w in ← watchersOf c.boards (.value r) do
      fire i c w
    return result

/-- Call a function that changes the value that it is a member of. -/
def callModifier (i : Interpreter) (c : Context) (site : Token) (caller : Option String) (f : Value)
    (args : List ValueRef) : Run ValueRef := do
  checkCaller c caller
  callAndTell i c site f args

def callEntry (i : Interpreter) (c : Context) (site : Token) (caller : Option String) (e : Entry)
    (awaited : Bool) (args : List ValueRef) : Run ValueRef := do
  let args ←
    match args with
    | [] => breakDown .position
    | r :: rest => do
      match ← value r with
      | .blank => pure rest
      | _ => pure args
  match ← value (← entryValue e) with
  | .function params code true =>
    if awaited then callValue i c site (.function params code true) args
    else
      queueCall c site params code args
      newUndefined
  | .builtin arity action true => callModifier i c site caller (.builtin arity action true) args
  | f => callValue i c site f args

def callerOf (name : String) : Option String :=
  match nameParts name with
  | [] | [_] => none
  | parts => some (".".intercalate parts.dropLast)

def isCallable : Value → Bool
  | .builtin .. | .function .. => true
  | _ => false

end DreamBerd.Run
