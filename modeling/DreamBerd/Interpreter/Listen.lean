import DreamBerd.Interpreter

/-!
# Listeners

Code that waits for the mouse or the keyboard. An event is delivered to every living listener in the
order in which they were made; a listener whose code fails is dead from then on.
-/

namespace DreamBerd.Run

def afterLastPoint (s : String) : String := (s.splitOn ".").getLast?.getD ""

def eventObject (fields : List (String × ValueRef)) : Run ValueRef := do
  let x ← newScope (.ofList (fields.map fun f => (f.1, .named f.1 f.2)))
  newValue (.object "MouseEvent" x)

def mouseObject (trigger : Trigger) (button : String) (x y : Number) : Run ValueRef := do
  let x ← newNumber x
  let y ← newNumber y
  let button ← newText (afterLastPoint button)
  let event ← newText trigger.word
  eventObject [("x", x), ("y", y), ("button", button), ("event", event)]

def keyObject (trigger : Trigger) (k : Key) : Run ValueRef := do
  let key ← newText (afterLastPoint k.text)
  let event ← newText trigger.word
  eventObject [("key", key), ("event", event)]

def listen (i : Listener) : Run Unit :=
  modifyAround fun a => { a with listeners := a.listeners.push i }

def react (i : Interpreter) (l : Listener) (event : ValueRef) : Run Unit := do
  let c ← enter l.scopes l.boards (.ofList [("event", .named "event" event)])
  let _ ← i.run c l.code

def setListener (n : Nat) (l : Listener) : Run Unit :=
  modifyAround fun a => { a with listeners := a.listeners.setIfInBounds n l }

def onMouse (i : Interpreter) (n : Nat) (l : Listener) (button : String) (pressed : Bool)
    (x y : Number) : Run Unit := do
  match l.trigger with
  | .mouseClick =>
    if pressed then setListener n { l with buttons := button :: l.buttons.erase button }
    else if l.buttons.contains button then
      react i l (← mouseObject l.trigger button x y)
      setListener n { l with buttons := l.buttons.erase button }
    else breakDown .key
  | .mouseDown => if pressed then react i l (← mouseObject l.trigger button x y)
  | .mouseUp => if !pressed then react i l (← mouseObject l.trigger button x y)
  | _ => pure ()

def onKey (i : Interpreter) (n : Nat) (l : Listener) (k : Key) (pressed : Bool) : Run Unit := do
  match l.trigger with
  | .keyClick =>
    if pressed then setListener n { l with keys := k :: l.keys.erase k }
    else
      if l.keys.contains k then react i l (← keyObject l.trigger k)
      setListener n { l with keys := l.keys.erase k }
  | .keyDown => if pressed then react i l (← keyObject l.trigger k)
  | .keyUp => if !pressed then react i l (← keyObject l.trigger k)
  | _ => pure ()

/-- Tell a listener of an event; gives why it died, if it did. -/
def tell (i : Interpreter) (e : Event) (n : Nat) : Run (Option Fault) := do
  match (← get).around.listeners[n]? with
  | some l =>
    if !l.alive then return none
    else
      tryCatch
        (do
          match e with
          | .mouse button pressed x y => onMouse i n l button pressed x y
          | .key k pressed => onKey i n l k pressed
          return none)
        fun f => do
          setListener n { l with alive := false }
          return some f
  | none => return none

def tellAll (i : Interpreter) (e : Event) : List Nat → Run (List (Nat × Fault))
  | [] => return []
  | n :: ns => do
    match ← tell i e n with
    | some f => return (n, f) :: (← tellAll i e ns)
    | none => tellAll i e ns

def deliver (i : Interpreter) (e : Event) : Run Unit := do
  modifyAround fun a => { a with delivering := true }
  let ended ← tellAll i e (List.range (← get).around.listeners.size)
  modifyAround fun a => { a with delivering := false, ended := a.ended ++ [ended] }

/-- End the program if a listener of the running part is dead. -/
def exitIfDead : Run Unit := do
  let w ← get
  if (w.around.listeners.toList.drop w.part.firstListener).any (!·.alive) then throw .exit

def awaitEvent (i : Interpreter) : Run Unit := do
  exitIfDead
  let w ← get
  match w.around.delivering, w.around.events with
  | false, e :: es =>
    modifyAround fun a => { a with events := es }
    deliver i e
  | _, _ => throw .waitsForever

end DreamBerd.Run
