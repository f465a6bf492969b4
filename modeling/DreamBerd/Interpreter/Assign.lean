import DreamBerd.Datum.Publish
import DreamBerd.Interpreter.Debug
import DreamBerd.Interpreter.Next

/-!
# Declarations and assignments

A declaration gives a name a variable in the innermost scope, an assignment sets the variable or an
element of its value. Both then run the statements that waited for the change: those that wait for the
next value of the name, and those whose condition mentions it.
-/

namespace DreamBerd

structure Declaration where
  name : Token
  modifiers : List Token
  lifetime : Option String
  expression : Expression
  debug : Nat
  confidence : Nat

structure Assignment where
  name : Token
  expression : Expression
  debug : Nat
  indexes : List Expression
  confidence : Nat

namespace Run

/-! ## Statements that wait -/

/-- Keep the next value of a name for the statement that waits for it. -/
def keepNext (vigil : Vigil) (site : Site) (v : ValueRef) : Run Unit := do
  let name := nextName site.1 site.2
  match vigil.scopes with
  | [] => breakDown .position
  | x :: _ => modifyScope x (·.put name (.named name v))

/-- A statement waits no longer for a name; gives what it still waits for. -/
def stopWaiting (vigil : Vigil) (site : Site) : Run (List Site) := do
  let waiting := (← store).waits[vigil.waiting]?.getD []
  if waiting.contains site then
    let rest := waiting.erase site
    modifyStore fun s => { s with waits := s.waits.setIfInBounds vigil.waiting rest }
    return rest
  else breakDown .key

def forgetVigil (s : Site) : Run Unit := do
  if (← get).part.vigils.contains s then
    modifySection fun part => { part with vigils := part.vigils.erase s }
  else breakDown .key

/-- Tell the statement that waits for the next value of a name; it goes on when it waits for nothing
else. -/
def tellVigil (i : Interpreter) (c : Context) (site : Site) (v : ValueRef) : Run Unit := do
  match (← get).part.vigils.get? site with
  | none => pure ()
  | some n =>
    match (← store).vigils[n]? with
    | none => pure ()
    | some vigil =>
      keepNext vigil site v
      if (← stopWaiting vigil site).isEmpty then i.resume c n
      forgetVigil site

def watchVariable (boards : List BoardRef) (r : VariableRef) (x : Watcher) : Run Unit := do
  match (← variableOf r).previous.getLast? with
  | none => breakDown .position
  | some old => if (← value old).isMutable then removeWatcher boards (.value old) x.id
  addWatcherTo boards (.variable r) x

/-- A watcher of a name watches the variable of the name, and its value. -/
def handOver (boards : List BoardRef) (r : VariableRef) (v : ValueRef) (x : Watcher) : Run Unit := do
  if (← value v).isMutable then addWatcherTo boards (.value v) x
  watchVariable boards r x

/-- Run the watchers of a name that has just been bound to a variable. They watch the variable from
now on. -/
def tellNameWatchers (i : Interpreter) (c : Context) (name : String) (r : VariableRef)
    (v : ValueRef) : Run Unit := do
  let watchers ← watchersOf c.boards (.name name)
  if !watchers.isEmpty then
    for w in watchers do
      let condition ← i.eval c false w.condition
      handOver c.boards r v w
      let _ ← runIf i c.scopes c.boards condition w.code
    forgetKey c.boards (.name name)

/-- Run the watchers of a value that has been changed, apart from those that have been run. -/
def tellValueWatchers (i : Interpreter) (c : Context) (r : ValueRef) (visited : List Nat) :
    Run (List Nat) := do
  let mut visited := visited
  for w in ← watchersOf c.boards (.value r) do
    if !visited.contains w.id then
      fire i c w
      visited := visited ++ [w.id]
  return visited

def leaveOldValue (boards : List BoardRef) (r : VariableRef) (w : Watcher) : Run Unit := do
  match (← variableOf r).previous.getLast? with
  | some old => if (← value old).isMutable then removeWatcher boards (.value old) w.id
  | none => pure ()

/-- A watcher of a variable watches its new value in place of the old one. -/
def followValue (boards : List BoardRef) (r : VariableRef) (v : ValueRef) (w : Watcher) : Run Unit := do
  if (← value v).isMutable then
    match boards with
    | [] => breakDown .position
    | b :: _ => addWatcher b (.value v) w
  leaveOldValue boards r w

/-- Run the watchers of a variable that has been set, apart from those that have been run. -/
def tellVariableWatchers (i : Interpreter) (c : Context) (r : VariableRef) (v : ValueRef)
    (visited : List Nat) : Run Unit := do
  let mut visited := visited
  for w in ← watchersOf c.boards (.variable r) do
    if !visited.contains w.id then
      let condition ← i.eval c false w.condition
      followValue c.boards r v w
      let _ ← runIf i c.scopes c.boards condition w.code
      visited := visited ++ [w.id]

/-! ## Lasting variables -/

def publishVariable (name : String) (v : ValueRef) (confidence : Nat) : Run Unit := do
  let w ← get
  if !w.around.hasGlobals then complainHere .noPublishing
  if !w.around.hasToken then complainHere .noAccessToken
  let body ← ofExcept ((← store).describe v).publish
  let title := "Create Public Global: " ++ name ++ ";;;" ++ toString confidence
  modifyAround fun a => { a with issues := a.issues ++ [(title, body)] }

/-- The procedures that a value holds. -/
def firstUnstorable : Datum → Option Breakdown
  | .procedure a =>
    if a.isLocal then some .field
    else
      match a with
      | .math _ => some .notStorable
      | _ => none
  | _ => none

mutual

/-- Why a datum cannot be stored, if it cannot. -/
def unstorable? : Datum → Option Breakdown
  | .list items => unstorableIn? items
  | .tuple items => unstorableIn? items
  | .dict entries => unstorableEntries? entries
  | .record _ fields => unstorableFields? fields
  | d => firstUnstorable d

def unstorableIn? : List Datum → Option Breakdown
  | [] => none
  | d :: ds => (unstorable? d).or (unstorableIn? ds)

def unstorableEntries? : List (Datum × Datum) → Option Breakdown
  | [] => none
  | (_, d) :: es => (unstorable? d).or (unstorableEntries? es)

def unstorableFields? : List (String × Datum) → Option Breakdown
  | [] => none
  | (_, d) :: fs => (unstorable? d).or (unstorableFields? fs)

end

/-- The word for a truth value in the list of stored variables. -/
def storedTruth (b : Bool) : String := if b then "True" else "False"

/-- Write a variable to the archive: first a line of the list, then its value. -/
def archiveVariable (name : String) (l : Lifetime ValueRef) : Run Unit := do
  let a := (← get).around
  let address := toString a.nextAddress
  let line := ";;;".intercalate [name, address, storedTruth l.canBeReset, storedTruth l.canEditValue,
    toString l.confidence] ++ "\n"
  let archive := a.archive.getD ⟨none, none⟩
  let values := archive.values.getD []
  let values := values.filter (·.1 != address)
  let list := archive.list.getD "" ++ line
  modifyAround fun a => { a with
    nextAddress := a.nextAddress + 1
    archive := some ⟨some list, some (values ++ [(address, none)])⟩ }
  let s ← store
  match unstorable? (s.describe l.value) with
  | some b => breakDown b
  | none =>
    modifyAround fun a => { a with
      archive := some ⟨some list, some (values ++ [(address, some ⟨s, l.value⟩)])⟩ }

/-! ## Declarations -/

def isVar (scopes : List ScopeRef) (t : Option Token) : Run Bool := do
  match t with
  | none => breakDown .position
  | some t =>
    match ← value (← valueOfToken scopes t) with
    | .keyword "var" => return true
    | _ => return false

def isTemporal (lifetime : String) : Run Bool := do
  match lifetime.toList.getLast? with
  | none => breakDown .position
  | some c => return !Text.isDigit c

def linesOf (lifetime : Option String) : Run Int := do
  match lifetime with
  | none => return endlessLines
  | some s =>
    if ← isTemporal s then return endlessLines
    else
      match Decimal.readInt? s with
      | some n => return n
      | none => breakDown .value

def bindVariable (x : ScopeRef) (name : String) (l : Lifetime ValueRef) : Run VariableRef := do
  match (← scope x).get? name with
  | some (.variable r) =>
    setVariable r (← ofExcept ((← variableOf r).redeclare l))
    return r
  | some e =>
    let r ← newVariable ⟨name, [l], [← entryValue e]⟩
    modifyScope x (·.put name (.variable r))
    return r
  | none =>
    let r ← newVariable ⟨name, [l], []⟩
    modifyScope x (·.put name (.variable r))
    return r

/-- What a declaration finds out before it binds its name: the number of the lifetime, how many lines it
has, and what can be done with the variable. -/
def prepare (c : Context) (d : Declaration) : Run (Nat × Int × Bool × Bool) := do
  let canBeReset ← isVar c.scopes (atPosition? d.modifiers (-2))
  let canEditValue ← isVar c.scopes (atPosition? d.modifiers (-1))
  if (nameParts d.name.text).length > 1 then complainAt .dottedDeclaration d.name
  let lines ← linesOf d.lifetime
  return (← freshId, lines, canBeReset, canEditValue)

/-- The beginning of a declaration, up to the binding of its name. -/
def bindDeclared (c : Context) (d : Declaration) (v : ValueRef) : Run (VariableRef × Lifetime ValueRef) := do
  let (tag, lines, reset, edit) ← prepare c d
  let l : Lifetime ValueRef := ⟨tag, v, lines, d.confidence, reset, edit⟩
  match c.scopes with
  | [] => breakDown .position
  | x :: _ => return (← bindVariable x d.name.text l, l)

/-- The first part of a declaration: the name is bound, and the statement that waits for its next value is
told. -/
def introduce (i : Interpreter) (c : Context) (d : Declaration) (v : ValueRef) :
    Run (VariableRef × Lifetime ValueRef) := do
  let (r, l) ← bindDeclared c d v
  debugDeclaration c.scopes d.debug d.name d.modifiers d.lifetime d.expression v
  c.scopes.head?.forM fun x => tellVigil i c (d.name.text, x) v
  return (r, l)

def publishDeclared (d : Declaration) (v : ValueRef) : Run Unit :=
  if d.modifiers.length = 3 then publishVariable d.name.text v d.confidence else pure ()

/-- The end of a declaration: a variable without end is stored, and one that ends after a time gets a
timer. -/
def settle (d : Declaration) (r : VariableRef) (l : Lifetime ValueRef) : Run Unit := do
  match d.lifetime with
  | none => pure ()
  | some "Infinity" => archiveVariable d.name.text l
  | some s =>
    if ← isTemporal s then
      let timer : Timer := ⟨s, r, l.tag, ← line⟩
      modifyAround fun a => { a with timers := a.timers ++ [timer] }

def declare (i : Interpreter) (c : Context) (d : Declaration) (v : ValueRef) : Run Unit := do
  let (r, l) ← introduce i c d v
  tellNameWatchers i c d.name.text r v
  publishDeclared d v
  settle d r l

/-! ## Assignments -/

/-- Set an element inside a value, going through the elements with the indices before the last; then
tell those who watch the values on the way. -/
def assignInside (i : Interpreter) (c : Context) (line : Int) (new : ValueRef) :
    List ValueRef → ValueRef → List Nat → Run (List Nat)
  | [], _, _ => breakDown .position
  | n :: rest, r, visited => do
    let v ← value r
    if !v.isPresent || !v.isIndexable then complainAtLine .assignIntoUnindexable line
    let visited ←
      if rest.isEmpty then do
        setIndex r n new
        pure visited
      else
        let inner ← getIndex r n
        assignInside i c line new rest inner visited
    tellValueWatchers i c r visited

def assignWhole (name : Token) (confidence : Nat) (e : Entry) (v : ValueRef) : Run Unit := do
  match e with
  | .variable r =>
    let old ← variableOf r
    let now ← ofExcept old.current
    if !now.canBeReset then complainAt .assignConstant name
    let l : Lifetime ValueRef :=
      ⟨← freshId, v, endlessLines, confidence, now.canBeReset, now.canEditValue⟩
    setVariable r (← ofExcept (old.assign l))
  | _ => complainAt .assignNonVariable name

/-- Set what an entry holds, or an element inside of it; gives the watchers that have been run. -/
def assignEntry (i : Interpreter) (c : Context) (a : Assignment) (e : Entry) (indexes : List ValueRef)
    (v : ValueRef) : Run (List Nat) := do
  if indexes.isEmpty then
    assignWhole a.name a.confidence e v
    return []
  else
    checkEditable (some e) (complainAt .cannotEdit a.name)
    assignInside i c a.name.line v indexes (← entryValue e) []

def assign (i : Interpreter) (c : Context) (a : Assignment)
    (indexes : List ValueRef) (v : ValueRef) : Run Unit := do
  match ← lookupWithin c.scopes a.name.text with
  | (some e, some x) =>
    debugAssignment c.scopes a.debug a.name a.expression a.indexes indexes v
    let visited ← assignEntry i c a e indexes v
    tellVigil i c (lastPart a.name.text, x) v
    match e with
    | .variable r => tellVariableWatchers i c r v visited
    | _ => pure ()
  | _ => complainAt .assignUndefined a.name

end Run

end DreamBerd
