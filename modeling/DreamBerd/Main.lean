import DreamBerd.Prompt

/-!
# The command line

With the name of a file as argument its program is run, otherwise lines are read at the prompt.
-/

namespace DreamBerd.CommandLine

def steps : Interpreter := interpreter plentyOfSteps

def lastWords : Fault → Option String
  | .exit => none
  | .report r => some r.text
  | .plain c => some c.message
  | .breakdown _ => some "The program broke down."
  | .waitsForever => some "The program waits for something that cannot happen."
  | .outOfFuel => some "The program did not come to an end."

def printOutput (w : World) : IO World := do
  for page in w.pages do
    IO.print page
  IO.print w.output
  (← IO.getStdout).flush
  return { w with pages := [], output := "" }

def finish (f : Fault) : IO UInt32 := do
  match lastWords f with
  | none => return 0
  | some s =>
    IO.eprintln s
    return 1

def newChance : IO Float := do
  let n ← IO.rand 0 (Nat.pow 2 53 - 1)
  return Float.ofNat n / Float.ofNat (Nat.pow 2 53)

/-- Surroundings with enough chances for most programs. -/
def surroundings : IO Surroundings := do
  let chances ← (List.range 10000).mapM fun _ => newChance
  return { Surroundings.quiet with chances }

def runFile (file : String) : IO UInt32 := do
  let text ← IO.FS.readFile file
  let w := World.start (← surroundings) ⟨file, ""⟩
  let (outcome, w) := (Run.program steps text).result w
  let _ ← printOutput w
  match outcome with
  | .ok _ => return 0
  | .error f => finish f

/-- Read lines at the prompt until the input ends. -/
partial def converse (p : Prompt) (w : World) : IO UInt32 := do
  let w ← printOutput w
  let line ← (← IO.getStdin).getLine
  if line.isEmpty then
    IO.println ""
    return 0
  let (outcome, w) := (Prompt.feed steps p (.line (line.dropEndWhile (· == '\n')).toString)).result w
  match outcome with
  | .ok p => converse p w
  | .error f =>
    let _ ← printOutput w
    finish f

def runPrompt : IO UInt32 := do
  let w := World.start (← surroundings) ⟨Prompt.file, ""⟩
  let (outcome, w) := Prompt.start.result w
  match outcome with
  | .ok p => converse p w
  | .error f =>
    let _ ← printOutput w
    finish f

end DreamBerd.CommandLine

/-- Run the program in the file that is named, or the prompt. -/
def main (args : List String) : IO UInt32 :=
  match args with
  | file :: _ => DreamBerd.CommandLine.runFile file
  | [] => DreamBerd.CommandLine.runPrompt
