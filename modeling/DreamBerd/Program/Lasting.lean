import DreamBerd.Program.Parts
import DreamBerd.World.Copy
import DreamBerd.World.Restore

/-!
# Lasting variables

At its start a program is given the variables that earlier programs have stored, and those that have
been made public.
-/

namespace DreamBerd.Run

def bindLasting (x : ScopeRef) (name : String) (v : ValueRef) (confidence : Int)
    (canBeReset canEditValue : Bool) : Run Unit := do
  let l : Lifetime ValueRef := ⟨← freshId, v, endlessLines, confidence, canBeReset, canEditValue⟩
  let r ← newVariable ⟨name, [l], []⟩
  modifyScope x (·.put name (.variable r))

def listedInt (s : String) : Run Int :=
  match Decimal.readInt? s with
  | some n => pure n
  | none => breakDown .value

/-- Give back the stored variable that a line of the list describes. -/
def loadStoredLine (x : ScopeRef) (values : List (String × Option Snapshot)) (line : String) :
    Run Unit := do
  match line.splitOn ";;;" with
  | [name, address, canBeReset, canEditValue, confidence] =>
    match values.find? (·.1 == address) with
    | none => breakDown .missingFile
    | some (_, none) => breakDown .endOfFile
    | some (_, some written) =>
      let v ← bringBack written
      let confidence ← listedInt confidence
      bindLasting x name v confidence (canBeReset != "False") (canEditValue != "False")
  | _ => breakDown .value

def loadStoredLines (x : ScopeRef) (values : List (String × Option Snapshot)) :
    List String → Run Unit
  | [] => return ()
  | line :: lines => do
    if !(Text.strip line).isEmpty then loadStoredLine x values line
    loadStoredLines x values lines

def loadStored (x : ScopeRef) : Run Unit := do
  match (← get).around.archive with
  | some ⟨some list, some values⟩ => loadStoredLines x values (Text.lines list)
  | _ => pure ()

def publicText (path : String) : Run String :=
  return ((← get).around.published.find? (·.1 == path)).elim "" (·.2)

def loadPublicValue (x : ScopeRef) (name text confidence : String) : Run Unit := do
  match Json.read? text with
  | none => breakDown .value
  | some j =>
    let v ← restore (← ofExcept (Datum.ofPublished j))
    bindLasting x name v (← listedInt confidence) false false

def publicWarning (name : String) : String :=
  Ansi.yellow ++ "Warning: Public global variable `" ++ name ++ "` access failed." ++ Ansi.reset ++
    "\n"

/-- Give the public variable that a line of the list describes. -/
def loadPublicLine (x : ScopeRef) (line : String) : Run Unit := do
  match line.splitOn ";;;" with
  | [name, address, confidence] =>
    let text ← publicText ("serialized_objects/" ++ address)
    tryCatch (loadPublicValue x name text confidence) fun f => do
      match f with
      | .plain (.unknownPlainType shown) => emit (shown ++ "\n" ++ publicWarning name)
      | .plain _ | .breakdown .value => emit (publicWarning name)
      | f => throw f
  | _ => breakDown .value

def loadPublicLines (x : ScopeRef) : List String → Run Unit
  | [] => return ()
  | line :: lines => do
    if !(Text.strip line).isEmpty then loadPublicLine x line
    loadPublicLines x lines

def loadPublic (x : ScopeRef) : Run Unit := do
  loadPublicLines x ((← publicText "public_globals.txt").splitOn "\n")

end DreamBerd.Run
